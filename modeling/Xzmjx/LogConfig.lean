import Mathlib.Data.Int.Notation
import Mathlib.Data.List.Basic
import Mathlib.Data.List.Nodup
import Mathlib.Data.String.Basic
import Mathlib.Logic.Function.Basic

/-!
# Applying a logging configuration

`setValue` on the variable `logs` compares the new set of definitions with the old
one, calls the listener of `LogIniter` if they differ, and stores the new set. The
listener finds the old definition of each name, skips a definition that equals it, and
otherwise sets the logger up anew. Both comparisons are `LogDefine::operator==`, which
compares `appenders` with itself.

A formatter is its pattern, and which patterns parse is a parameter. A logger is reached
through its name; the manager owns it.
-/
namespace Xzmjx.LogModel

inductive LogLevel
  | unknown
  | debug
  | info
  | warn
  | error
  | fatal
  deriving DecidableEq, Repr

structure LogAppenderDefine where
  /-- 0 for the standard output, anything else for a file. -/
  type : ℤ := 0
  level : LogLevel := .unknown
  format : String := ""
  file : String := ""
  deriving DecidableEq, Repr

structure LogDefine where
  name : String
  level : LogLevel := .unknown
  format : String := ""
  appenders : List LogAppenderDefine := []
  deriving DecidableEq, Repr

/-- `LogDefine::operator==`; its last comparison is of the left side's appenders with
themselves. -/
def LogDefine.eq (lhs rhs : LogDefine) : Bool :=
  lhs.name = rhs.name && lhs.level = rhs.level && lhs.format = rhs.format &&
    lhs.appenders = lhs.appenders

/-- A `std::set<LogDefine>`, ordered by `LogDefine::operator<`. -/
structure LogDefines where
  defines : List LogDefine
  sorted : defines.Pairwise fun a b => a.name < b.name

/-- `std::set::find`, which compares names only. -/
def LogDefines.find (s : LogDefines) (d : LogDefine) : Option LogDefine :=
  s.defines.find? fun it => it.name = d.name

/-- `operator==` of the elements of two sets, one after another. -/
def eqAll : List LogDefine → List LogDefine → Bool
  | [], [] => true
  | a :: as, b :: bs => a.eq b && eqAll as bs
  | _, _ => false

inductive Target
  | stdout
  | file (name : String)
  deriving DecidableEq, Repr

/-- A `StdOutLogAppender` or a `FileLogAppender`. -/
structure LogAppender where
  target : Target
  level : LogLevel := .debug
  formatter : Option String := none
  hasFormatter : Bool := false
  deriving DecidableEq, Repr

structure Logger where
  name : String
  level : LogLevel := .debug
  formatter : String := "%d\x7b%Y-%m-%d %H:%M:%S\x7d%T[%p]%T[%c]%T%t%T%N%T%F%T%T%f:%l%T%m%n"
  appenders : List LogAppender := []
  deriving DecidableEq, Repr

/-- `LogAppender::setFormatter` with a formatter. -/
def LogAppender.setFormatter (a : LogAppender) (pattern : String) : LogAppender :=
  { a with formatter := some pattern, hasFormatter := true }

namespace Logger

/-- `Logger::setFormatter`: appenders without a formatter of their own follow. -/
def setFormatter (l : Logger) (pattern : String) : Logger :=
  { l with
    formatter := pattern
    appenders := l.appenders.map fun i =>
      if i.hasFormatter then i else { i with formatter := some pattern } }

def addAppender (l : Logger) (appender : LogAppender) : Logger :=
  let appender :=
    if appender.formatter = none && !appender.hasFormatter then
      { appender with formatter := some l.formatter }
    else appender
  { l with appenders := l.appenders ++ [appender] }

def clearAppender (l : Logger) : Logger := { l with appenders := [] }

end Logger

structure LoggerManager where
  loggers : String → Option Logger

namespace LoggerManager

/-- `getLogger`: the logger of that name, or a new one. -/
def getLogger (m : LoggerManager) (name : String) : Logger := (m.loggers name).getD { name }

def setLogger (m : LoggerManager) (name : String) (l : Logger) : LoggerManager :=
  ⟨Function.update m.loggers name (some l)⟩

def delLogger (m : LoggerManager) (name : String) : LoggerManager :=
  ⟨Function.update m.loggers name none⟩

end LoggerManager

/-! ### The listener -/

/-- The appender that the listener makes for a definition. -/
def LogAppenderDefine.make (valid : String → Bool) (a : LogAppenderDefine) : LogAppender :=
  let appender : LogAppender :=
    { target := if a.type = 0 then .stdout else .file a.file, level := a.level }
  if a.format ≠ "" && valid a.format then appender.setFormatter a.format else appender

/-- The part of the listener that sets a logger up; `none` where `setFormatter` throws. -/
def LogDefine.setUp (valid : String → Bool) (d : LogDefine) (l : Logger) : Option Logger := do
  let l := { l with level := d.level }
  let l ←
    if d.format = "" then some l
    else if valid d.format then some (l.setFormatter d.format) else none
  some (d.appenders.foldl (fun l a => l.addAppender (a.make valid)) l.clearAppender)

/-- The body of the first loop of the listener. -/
def applyDefine (valid : String → Bool) (old : LogDefines) (m : LoggerManager) (d : LogDefine) :
    Option LoggerManager :=
  let apply := (d.setUp valid (m.getLogger d.name)).map (m.setLogger d.name)
  match old.find d with
  | none => apply
  | some it => if it.eq d then some m else apply

/-- The body of the second loop. -/
def removeDefine (new : LogDefines) (m : LoggerManager) (it : LogDefine) : LoggerManager :=
  if (new.find it).isNone then m.delLogger it.name else m

/-- The listener that `LogIniter` registers. -/
def listener (valid : String → Bool) (old new : LogDefines) (m : LoggerManager) :
    Option LoggerManager := do
  let m ← new.defines.foldlM (applyDefine valid old) m
  some (old.defines.foldl (removeDefine new) m)

/-- The configuration variable and the manager that its listener works on. -/
structure State where
  val : LogDefines
  manager : LoggerManager

/-- `ConfigVar<std::set<LogDefine>>::setValue`. -/
def setValue (valid : String → Bool) (s : State) (val : LogDefines) : Option State :=
  if eqAll val.defines s.val.defines then some s
  else (listener valid s.val val s.manager).map fun m => ⟨val, m⟩

/-! ### What a definition asks for -/

/-- An appender as its user sees it; `format` is that of a formatter of its own. -/
structure AppenderSpec where
  target : Target
  level : LogLevel
  format : Option String
  deriving DecidableEq, Repr

def LogAppenderDefine.spec (a : LogAppenderDefine) : AppenderSpec where
  target := if a.type = 0 then .stdout else .file a.file
  level := a.level
  format := if a.format = "" then none else some a.format

def LogAppender.spec (a : LogAppender) : AppenderSpec where
  target := a.target
  level := a.level
  format := if a.hasFormatter then a.formatter else none

/-- Every pattern of the definition parses. -/
structure LogDefine.Valid (valid : String → Bool) (d : LogDefine) : Prop where
  logger : d.format = "" ∨ valid d.format = true
  appenders : ∀ a ∈ d.appenders, a.format = "" ∨ valid a.format = true

/-- The logger has the level and exactly the appenders of the definition. -/
def InEffect (m : LoggerManager) (d : LogDefine) : Prop :=
  ∃ l, m.loggers d.name = some l ∧ l.level = d.level ∧
    l.appenders.map LogAppender.spec = d.appenders.map LogAppenderDefine.spec

variable {valid : String → Bool} {old new : LogDefines} {m m' : LoggerManager} {d : LogDefine}

theorem make_spec {a : LogAppenderDefine} (h : a.format = "" ∨ valid a.format = true) :
    (a.make valid).spec = a.spec := by
  unfold LogAppenderDefine.make LogAppenderDefine.spec
  by_cases hf : a.format = ""
  · simp [hf, LogAppender.spec]
  · simp [hf, h.resolve_left hf, LogAppender.spec, LogAppender.setFormatter]

theorem addAppender_appenders (l : Logger) (a : LogAppender) :
    (l.addAppender a).appenders.map LogAppender.spec =
      l.appenders.map LogAppender.spec ++ [a.spec] := by
  unfold Logger.addAppender
  dsimp only
  rw [List.map_append]
  split_ifs with hf
  · simp only [Bool.and_eq_true, Bool.not_eq_true', decide_eq_true_eq] at hf
    simp [LogAppender.spec, hf.2]
  · rfl

theorem foldl_addAppender {as : List LogAppenderDefine}
    (h : ∀ a ∈ as, a.format = "" ∨ valid a.format = true) (l : Logger) :
    (as.foldl (fun l a => l.addAppender (a.make valid)) l).level = l.level ∧
      (as.foldl (fun l a => l.addAppender (a.make valid)) l).appenders.map LogAppender.spec =
        l.appenders.map LogAppender.spec ++ as.map LogAppenderDefine.spec := by
  induction as generalizing l with
  | nil => simp
  | cons a as ih =>
      obtain ⟨hlevel, happenders⟩ :=
        ih (fun b hb => h b (List.mem_cons_of_mem _ hb)) (l.addAppender (a.make valid))
      refine ⟨hlevel, ?_⟩
      rw [List.foldl_cons, happenders, addAppender_appenders, make_spec (h a List.mem_cons_self)]
      simp

/-- Setting a logger up leaves nothing of what it was but the formatter. -/
theorem setUp_spec (h : d.Valid valid) (l : Logger) :
    ∃ l', d.setUp valid l = some l' ∧ l'.level = d.level ∧
      l'.appenders.map LogAppender.spec = d.appenders.map LogAppenderDefine.spec := by
  unfold LogDefine.setUp
  by_cases hf : d.format = ""
  · obtain ⟨hlevel, happenders⟩ :=
      foldl_addAppender h.appenders ({ l with level := d.level } : Logger).clearAppender
    exact ⟨_, by simp only [hf, if_true]; rfl, hlevel, happenders⟩
  · obtain ⟨hlevel, happenders⟩ := foldl_addAppender h.appenders
      (({ l with level := d.level } : Logger).setFormatter d.format).clearAppender
    have hvalid := h.logger.resolve_left hf
    exact ⟨_, by simp only [hf, hvalid, if_false, if_true]; rfl, hlevel, happenders⟩

/-! ### What the listener does -/

theorem LogDefine.eq_iff {a b : LogDefine} :
    a.eq b = true ↔ a.name = b.name ∧ a.level = b.level ∧ a.format = b.format := by
  simp [LogDefine.eq, and_assoc]

theorem LogDefines.names_nodup (s : LogDefines) : (s.defines.map LogDefine.name).Nodup :=
  List.pairwise_map.mpr (s.sorted.imp fun h => h.ne)

/-- The listener passes over a definition whose name, level and format are as before. -/
def Skipped (old : LogDefines) (d : LogDefine) : Prop := ∃ it ∈ old.defines, it.eq d = true

theorem find_eq_some {it : LogDefine} (hit : it ∈ old.defines) (hname : it.name = d.name) :
    old.find d = some it := by
  cases hfind : old.find d with
  | none =>
      have := List.find?_eq_none.mp hfind it hit
      simp [hname] at this
  | some it' =>
      have hname' : it'.name = d.name := by simpa using List.find?_some hfind
      have hmem' : it' ∈ old.defines := List.mem_of_find?_eq_some hfind
      rw [List.inj_on_of_nodup_map old.names_nodup hmem' hit (hname'.trans hname.symm)]

theorem applyDefine_of_skipped (h : Skipped old d) : applyDefine valid old m d = some m := by
  obtain ⟨it, hit, heq⟩ := h
  rw [applyDefine, find_eq_some hit (LogDefine.eq_iff.mp heq).1]
  exact if_pos heq

theorem applyDefine_of_not_skipped (h : ¬Skipped old d) :
    applyDefine valid old m d =
      (d.setUp valid (m.getLogger d.name)).map (m.setLogger d.name) := by
  unfold applyDefine
  dsimp only
  split
  · rfl
  · next it hfind =>
      rw [if_neg]
      exact fun heq => h ⟨it, List.mem_of_find?_eq_some hfind, heq⟩

/-- One round of the first loop: it concerns the logger of that name only. -/
theorem applyDefine_spec (old : LogDefines) (m : LoggerManager) (hvalid : d.Valid valid) :
    ∃ m', applyDefine valid old m d = some m' ∧
      (∀ x ≠ d.name, m'.loggers x = m.loggers x) ∧
      (Skipped old d → m'.loggers d.name = m.loggers d.name) ∧
      (¬Skipped old d → InEffect m' d) := by
  by_cases hskip : Skipped old d
  · exact ⟨m, applyDefine_of_skipped hskip, fun _ _ => rfl, fun _ => rfl, fun h => absurd hskip h⟩
  · obtain ⟨l, hsetUp, hlevel, happenders⟩ := setUp_spec hvalid (m.getLogger d.name)
    refine ⟨m.setLogger d.name l, ?_, ?_, fun h => absurd h hskip, fun _ => ?_⟩
    · rw [applyDefine_of_not_skipped hskip, hsetUp, Option.map_some]
    · exact fun x hx => Function.update_of_ne hx _ _
    · exact ⟨l, Function.update_self .., hlevel, happenders⟩

theorem InEffect.congr (h : InEffect m d) (heq : m'.loggers d.name = m.loggers d.name) :
    InEffect m' d := by
  obtain ⟨l, hl, hspec⟩ := h
  exact ⟨l, heq.trans hl, hspec⟩

theorem foldlM_applyDefine (old : LogDefines) {ds : List LogDefine}
    (hnodup : (ds.map LogDefine.name).Nodup) (hvalid : ∀ d ∈ ds, d.Valid valid)
    (m : LoggerManager) :
    ∃ m', ds.foldlM (applyDefine valid old) m = some m' ∧
      (∀ x ∉ ds.map LogDefine.name, m'.loggers x = m.loggers x) ∧
      (∀ d ∈ ds, Skipped old d → m'.loggers d.name = m.loggers d.name) ∧
      (∀ d ∈ ds, ¬Skipped old d → InEffect m' d) := by
  induction ds generalizing m with
  | nil => exact ⟨m, rfl, fun _ _ => rfl, by simp, by simp⟩
  | cons d ds ih =>
      obtain ⟨hnot, hnodup⟩ := List.nodup_cons.mp hnodup
      obtain ⟨m₁, hm₁, hother, hskip, happlied⟩ :=
        applyDefine_spec old m (hvalid d List.mem_cons_self)
      obtain ⟨m₂, hm₂, hrest, hskips, happlies⟩ :=
        ih hnodup (fun d hd => hvalid d (List.mem_cons_of_mem _ hd)) m₁
      have hkept : m₂.loggers d.name = m₁.loggers d.name := hrest d.name hnot
      have hbefore : ∀ d' ∈ ds, m₁.loggers d'.name = m.loggers d'.name := by
        intro d' hd'
        refine hother d'.name fun hc => hnot ?_
        rw [← hc]
        exact List.mem_map_of_mem hd'
      refine ⟨m₂, ?_, ?_, ?_, ?_⟩
      · rw [List.foldlM_cons, hm₁]
        exact hm₂
      · intro x hx
        obtain ⟨hxd, hxds⟩ := not_or.mp (fun hc => hx (List.mem_cons.mpr hc))
        rw [hrest x hxds, hother x hxd]
      · intro d' hd' hskip'
        rcases List.mem_cons.mp hd' with rfl | hd'
        · rw [hkept, hskip hskip']
        · rw [hskips d' hd' hskip', hbefore d' hd']
      · intro d' hd' hskip'
        rcases List.mem_cons.mp hd' with rfl | hd'
        · exact (happlied hskip').congr hkept
        · exact happlies d' hd' hskip'

theorem find_isNone_iff {s : LogDefines} {it : LogDefine} :
    (s.find it).isNone = true ↔ ∀ d ∈ s.defines, d.name ≠ it.name := by
  rw [Option.isNone_iff_eq_none, LogDefines.find, List.find?_eq_none]
  simp

/-- The second loop removes the loggers that only the old set names. -/
theorem foldl_removeDefine (new : LogDefines) (ds : List LogDefine) (m : LoggerManager) :
    (∀ it ∈ ds, (∀ d ∈ new.defines, d.name ≠ it.name) →
        (ds.foldl (removeDefine new) m).loggers it.name = none) ∧
      (∀ d ∈ new.defines, (ds.foldl (removeDefine new) m).loggers d.name = m.loggers d.name) ∧
      (∀ x, m.loggers x = none → (ds.foldl (removeDefine new) m).loggers x = none) := by
  induction ds generalizing m with
  | nil => exact ⟨by simp, fun _ _ => rfl, fun _ h => h⟩
  | cons it ds ih =>
      obtain ⟨hgone, hkept, hnone⟩ := ih (removeDefine new m it)
      simp only [List.foldl_cons]
      refine ⟨fun it' hit' honly => ?_, fun d hd => ?_, fun x hx => ?_⟩
      · rcases List.mem_cons.mp hit' with rfl | hit'
        · refine hnone _ ?_
          rw [removeDefine, if_pos (find_isNone_iff.mpr honly)]
          exact Function.update_self ..
        · exact hgone it' hit' honly
      · rw [hkept d hd, removeDefine]
        split_ifs with hfind
        · exact Function.update_of_ne (find_isNone_iff.mp hfind d hd) _ _
        · rfl
      · refine hnone x ?_
        rw [removeDefine]
        split_ifs
        · by_cases hxn : x = it.name
          · rw [hxn]
            exact Function.update_self ..
          · exact (Function.update_of_ne hxn _ _).trans hx
        · exact hx

/-! ### What a new configuration changes -/

/-- What `setValue` makes of the manager. -/
structure Outcome (old new : LogDefines) (m m' : LoggerManager) : Prop where
  skipped : ∀ d ∈ new.defines, Skipped old d → m'.loggers d.name = m.loggers d.name
  applied : ∀ d ∈ new.defines, ¬Skipped old d → InEffect m' d
  removed : ∀ it ∈ old.defines, (∀ d ∈ new.defines, d.name ≠ it.name) → m'.loggers it.name = none

theorem listener_outcome (old new : LogDefines) (m : LoggerManager)
    (hvalid : ∀ d ∈ new.defines, d.Valid valid) :
    ∃ m', listener valid old new m = some m' ∧ Outcome old new m m' := by
  obtain ⟨m₁, hm₁, -, hskipped, happlied⟩ := foldlM_applyDefine old new.names_nodup hvalid m
  obtain ⟨hgone, hkept, -⟩ := foldl_removeDefine new old.defines m₁
  refine ⟨_, by rw [listener, hm₁]; rfl, ?_, ?_, hgone⟩
  · exact fun d hd hskip => (hkept d hd).trans (hskipped d hd hskip)
  · exact fun d hd hskip => (happlied d hd hskip).congr (hkept d hd)

/-- Sets that compare equal name the same loggers, and every definition is skipped. -/
theorem eqAll_mem {as bs : List LogDefine} (h : eqAll as bs = true) :
    (∀ a ∈ as, ∃ b ∈ bs, a.eq b = true) ∧ (∀ b ∈ bs, ∃ a ∈ as, a.eq b = true) := by
  fun_induction eqAll as bs with
  | case1 => simp
  | case2 a as b bs ih =>
      obtain ⟨hab, hrest⟩ := Bool.and_eq_true_iff.mp h
      obtain ⟨hleft, hright⟩ := ih hrest
      constructor
      · intro x hx
        rcases List.mem_cons.mp hx with rfl | hx
        · exact ⟨b, List.mem_cons_self, hab⟩
        · obtain ⟨y, hy, hxy⟩ := hleft x hx
          exact ⟨y, List.mem_cons_of_mem _ hy, hxy⟩
      · intro y hy
        rcases List.mem_cons.mp hy with rfl | hy
        · exact ⟨a, List.mem_cons_self, hab⟩
        · obtain ⟨x, hx, hxy⟩ := hright y hy
          exact ⟨x, List.mem_cons_of_mem _ hx, hxy⟩
  | case3 => cases h

theorem outcome_of_eqAll (h : eqAll new.defines old.defines = true) : Outcome old new m m := by
  obtain ⟨hleft, hright⟩ := eqAll_mem h
  refine ⟨fun _ _ _ => rfl, fun d hd hskip => ?_, fun it hit honly => ?_⟩
  · obtain ⟨it, hit, heq⟩ := hleft d hd
    obtain ⟨hname, hlevel, hformat⟩ := LogDefine.eq_iff.mp heq
    exact absurd ⟨it, hit, LogDefine.eq_iff.mpr ⟨hname.symm, hlevel.symm, hformat.symm⟩⟩ hskip
  · obtain ⟨d, hd, heq⟩ := hright it hit
    exact absurd (LogDefine.eq_iff.mp heq).1 (honly d hd)

theorem setValue_outcome (s : State) (new : LogDefines)
    (hvalid : ∀ d ∈ new.defines, d.Valid valid) :
    ∃ s', setValue valid s new = some s' ∧ Outcome s.val new s.manager s'.manager := by
  unfold setValue
  split_ifs with heq
  · exact ⟨s, rfl, outcome_of_eqAll heq⟩
  · obtain ⟨m, hm, hout⟩ := listener_outcome s.val new s.manager hvalid
    exact ⟨⟨new, m⟩, by rw [hm, Option.map_some], hout⟩

/-- Applying the new set takes full effect: every logger it names has the level and the
appenders of its definition, and the loggers that only the old set names are gone. -/
def TakesFullEffect (valid : String → Bool) (s : State) (new : LogDefines) : Prop :=
  ∃ s', setValue valid s new = some s' ∧ (∀ d ∈ new.defines, InEffect s'.manager d) ∧
    ∀ it ∈ s.val.defines, (∀ d ∈ new.defines, d.name ≠ it.name) → s'.manager.loggers it.name = none

/-! ### Which definition a logger follows -/

def LogDefines.named (s : LogDefines) (x : String) : Option LogDefine :=
  s.defines.find? fun it => it.name = x

/-- What `LogDefine::operator==` sees of the definition of a name. -/
def LogDefines.seen (s : LogDefines) (x : String) : Option (LogLevel × String) :=
  (s.named x).map fun d => (d.level, d.format)

/-- Of the sets passed to `setValue`, the latest first: the definition of a name that was
carried out last. It is the first of the unbroken row of latest definitions of the name
that agree in level and format. -/
def carriedOut : List LogDefines → String → Option LogDefine
  | [], _ => none
  | new :: older, x =>
      match new.named x with
      | none => none
      | some d =>
          if older.head?.bind (LogDefines.seen · x) = some (d.level, d.format) then
            carriedOut older x
          else some d

variable {s s' : State} {it : LogDefine} {x : String} {older : List LogDefines}

theorem named_eq_some_iff {t : LogDefines} :
    t.named x = some d ↔ d ∈ t.defines ∧ d.name = x := by
  constructor
  · intro hnamed
    exact ⟨List.mem_of_find?_eq_some hnamed, by simpa using List.find?_some hnamed⟩
  · rintro ⟨hd, rfl⟩
    exact find_eq_some hd rfl

theorem skipped_iff : Skipped old d ↔ old.seen d.name = some (d.level, d.format) := by
  rw [LogDefines.seen, Option.map_eq_some_iff]
  constructor
  · rintro ⟨it, hit, heq⟩
    obtain ⟨hname, hlevel, hformat⟩ := LogDefine.eq_iff.mp heq
    exact ⟨it, named_eq_some_iff.mpr ⟨hit, hname⟩, Prod.ext hlevel hformat⟩
  · rintro ⟨it, hnamed, hseen⟩
    obtain ⟨hit, hname⟩ := named_eq_some_iff.mp hnamed
    obtain ⟨hlevel, hformat⟩ := Prod.mk.inj hseen
    exact ⟨it, hit, LogDefine.eq_iff.mpr ⟨hname, hlevel, hformat⟩⟩

/-- Sets that compare equal look the same. -/
theorem seen_of_eqAll (h : eqAll new.defines old.defines = true) (x : String) :
    new.seen x = old.seen x := by
  obtain ⟨hleft, hright⟩ := eqAll_mem h
  cases hnamed : new.named x with
  | some d =>
      obtain ⟨hd, rfl⟩ := named_eq_some_iff.mp hnamed
      obtain ⟨it, hit, heq⟩ := hleft d hd
      obtain ⟨hname, hlevel, hformat⟩ := LogDefine.eq_iff.mp heq
      have hskip : Skipped old d :=
        ⟨it, hit, LogDefine.eq_iff.mpr ⟨hname.symm, hlevel.symm, hformat.symm⟩⟩
      rw [skipped_iff.mp hskip, LogDefines.seen, hnamed, Option.map_some]
  | none =>
      cases hold : old.named x with
      | none => rw [LogDefines.seen, LogDefines.seen, hnamed, hold]
      | some it =>
          obtain ⟨hit, rfl⟩ := named_eq_some_iff.mp hold
          obtain ⟨d, hd, heq⟩ := hright it hit
          have hfound : new.named it.name = some d :=
            named_eq_some_iff.mpr ⟨hd, (LogDefine.eq_iff.mp heq).1⟩
          cases hnamed.symm.trans hfound

theorem carriedOut_eq (hnamed : new.named x = some d) :
    carriedOut (new :: older) x =
      if older.head?.bind (LogDefines.seen · x) = some (d.level, d.format) then
        carriedOut older x
      else some d := by
  rw [carriedOut, hnamed]

/-- A set that names a logger has a definition of it carried out, now or earlier. -/
theorem carriedOut_of_named (hnamed : new.named x = some d) :
    ∃ it, carriedOut (new :: older) x = some it ∧ it.name = x ∧ it.level = d.level := by
  have hname := (named_eq_some_iff.mp hnamed).2
  induction older generalizing new d with
  | nil => exact ⟨d, carriedOut_eq hnamed, hname, rfl⟩
  | cons old older ih =>
      rw [carriedOut_eq hnamed, List.head?_cons, Option.bind_some]
      split_ifs with hseen
      · obtain ⟨last, hlast, hsame⟩ := Option.map_eq_some_iff.mp hseen
        obtain ⟨it, hit, hitname, hlevel⟩ := ih hlast (named_eq_some_iff.mp hlast).2
        exact ⟨it, hit, hitname, hlevel.trans (congrArg Prod.fst hsame)⟩
      · exact ⟨d, rfl, hname, rfl⟩

/-- What the sets passed to `setValue` make of the state, the latest first: the stored set
looks like the latest, and the definitions that were carried out are in effect. -/
structure Follows (sets : List LogDefines) (s : State) : Prop where
  stored : ∀ x, s.val.seen x = sets.head?.bind (LogDefines.seen · x)
  inEffect : ∀ x it, carriedOut sets x = some it → it.name = x ∧ InEffect s.manager it

/-- A call of `setValue` with valid patterns. -/
theorem Follows.setValue (h : Follows older s) (hvalid : ∀ d ∈ new.defines, d.Valid valid) :
    ∃ s', setValue valid s new = some s' ∧ Outcome s.val new s.manager s'.manager ∧
      Follows (new :: older) s' := by
  obtain ⟨s', hs', hout⟩ := setValue_outcome s new hvalid
  refine ⟨s', hs', hout, fun x => ?_, fun x it hit => ?_⟩
  · -- a set that compares equal is not stored
    unfold LogModel.setValue at hs'
    split_ifs at hs' with heq
    · obtain rfl := Option.some.inj hs'
      exact (seen_of_eqAll heq x).symm
    · obtain ⟨m, -, rfl⟩ := Option.map_eq_some_iff.mp hs'
      rfl
  · cases hnamed : new.named x with
    | none => simp [carriedOut, hnamed] at hit
    | some d =>
        obtain ⟨hd, rfl⟩ := named_eq_some_iff.mp hnamed
        rw [carriedOut_eq hnamed, ← h.stored] at hit
        split_ifs at hit with hseen
        · obtain ⟨hname, heffect⟩ := h.inEffect _ it hit
          refine ⟨hname, heffect.congr ?_⟩
          rw [hname]
          exact hout.skipped d hd (skipped_iff.mpr hseen)
        · obtain rfl := Option.some.inj hit
          exact ⟨rfl, hout.applied d hd fun hskip => hseen (skipped_iff.mp hskip)⟩

/-- The state before any call of `setValue`, whatever loggers there are. -/
def State.initial (m : LoggerManager) : State := ⟨⟨[], List.Pairwise.nil⟩, m⟩

theorem Follows.initial (m : LoggerManager) : Follows [] (.initial m) :=
  ⟨fun _ => rfl, fun _ _ h => nomatch h⟩

theorem Follows.foldlM (h : Follows older s) {sets : List LogDefines}
    (hvalid : ∀ t ∈ sets, ∀ d ∈ t.defines, d.Valid valid) :
    ∃ s', sets.foldlM (LogModel.setValue valid) s = some s' ∧
      Follows (sets.reverse ++ older) s' := by
  induction sets generalizing s older with
  | nil => exact ⟨s, rfl, h⟩
  | cons new sets ih =>
      obtain ⟨s₁, hs₁, -, hfollows⟩ := h.setValue (hvalid new List.mem_cons_self)
      obtain ⟨s₂, hs₂, hrest⟩ := ih hfollows fun t ht => hvalid t (List.mem_cons_of_mem _ ht)
      refine ⟨s₂, by rw [List.foldlM_cons, hs₁]; exact hs₂, ?_⟩
      rwa [List.reverse_cons, List.append_assoc]

/-- A definition is in effect exactly if the one that was carried out for its logger lists
the same appenders. -/
theorem Follows.inEffect_iff (h : Follows (new :: older) s) (hd : d ∈ new.defines) :
    InEffect s.manager d ↔ ∀ it, carriedOut (new :: older) d.name = some it →
      it.appenders.map LogAppenderDefine.spec = d.appenders.map LogAppenderDefine.spec := by
  obtain ⟨it, hit, hname, hlevel⟩ :
      ∃ it, carriedOut (new :: older) d.name = some it ∧ it.name = d.name ∧ it.level = d.level :=
    carriedOut_of_named (named_eq_some_iff.mpr ⟨hd, rfl⟩)
  obtain ⟨-, l, hl, hllevel, hlspec⟩ := h.inEffect _ it hit
  rw [hname] at hl
  constructor
  · rintro ⟨l', hl', -, hspec⟩ it' hit'
    obtain rfl := Option.some.inj (hit.symm.trans hit')
    obtain rfl := Option.some.inj (hl.symm.trans hl')
    exact hlspec.symm.trans hspec
  · exact fun hspec => ⟨l, hl, hllevel.trans hlevel, hlspec.trans (hspec it hit)⟩

/-- When a logging configuration takes full effect. After every sequence of sets passed to
`setValue` and for every new set, all patterns valid: exactly when each definition of the new
set lists the appenders of the one that was carried out for its logger, the first of the
unbroken row of latest definitions of that name with the same level and format. -/
theorem takesFullEffect_iff (valid : String → Bool) (m : LoggerManager)
    (sets : List LogDefines) (hsets : ∀ t ∈ sets, ∀ d ∈ t.defines, d.Valid valid)
    (new : LogDefines) (hvalid : ∀ d ∈ new.defines, d.Valid valid) :
    ∃ s, sets.foldlM (setValue valid) (.initial m) = some s ∧
      (TakesFullEffect valid s new ↔
        ∀ d ∈ new.defines, ∀ it, carriedOut (new :: sets.reverse) d.name = some it →
          it.appenders.map LogAppenderDefine.spec = d.appenders.map LogAppenderDefine.spec) := by
  obtain ⟨s, hs, hfollows⟩ := (Follows.initial m).foldlM hsets
  obtain ⟨s', hs', hout, hafter⟩ := hfollows.setValue hvalid
  rw [List.append_nil] at hafter
  refine ⟨s, hs, ?_, fun hcond => ⟨s', hs', fun d hd => ?_, hout.removed⟩⟩
  · rintro ⟨s'', hs'', heffect, -⟩ d hd
    obtain rfl : s' = s'' := Option.some.inj (hs'.symm.trans hs'')
    exact (hafter.inEffect_iff hd).mp (heffect d hd)
  · exact (hafter.inEffect_iff hd).mpr (hcond d hd)

def LogDefines.one (d : LogDefine) : LogDefines := ⟨[d], List.pairwise_singleton _ _⟩

/-- `system` at level info with the given appenders. -/
def LogDefine.system (appenders : List LogAppenderDefine) : LogDefine :=
  { name := "system", level := .info, appenders }

/-- What the listener makes of `system` on the standard output. -/
def Logger.system : Logger where
  name := "system"
  level := .info
  appenders := [⟨.stdout, .unknown, some ({ name := "system" } : Logger).formatter, false⟩]

/-- The manager before any configuration: the root logger on the standard output. -/
def LoggerManager.root : LoggerManager :=
  ⟨fun x => if x = "root" then
    some (({ name := "root" } : Logger).addAppender { target := .stdout }) else none⟩

/-- `system` on the standard output. -/
def State.system : State := ⟨.one (.system [{}]), LoggerManager.root.setLogger "system" .system⟩

theorem LogDefine.system_valid (valid : String → Bool) {as : List LogAppenderDefine}
    (h : ∀ a ∈ as, a.format = "") :
    ∀ d ∈ (LogDefines.one (.system as)).defines, d.Valid valid := by
  intro d hd
  obtain rfl : d = .system as := List.mem_singleton.mp hd
  exact ⟨Or.inl rfl, fun a ha => Or.inl (h a ha)⟩

/-- A file for `system` takes effect once the level changes along with it. -/
theorem takesFullEffect_level :
    ∃ s,
      [LogDefines.one (.system [{}])].foldlM (setValue fun _ => true) (.initial .root) = some s ∧
      TakesFullEffect (fun _ => true) s
        (.one { LogDefine.system [{}, { type := 1, file := "system.txt" }] with level := .warn }) := by
  obtain ⟨s, hs, heffect⟩ := takesFullEffect_iff (fun _ => true) .root
    [.one (.system [{}])] (by
      rintro t ht
      obtain rfl := List.mem_singleton.mp ht
      exact LogDefine.system_valid _ (by simp))
    (.one { LogDefine.system [{}, { type := 1, file := "system.txt" }] with level := .warn }) (by
      intro d hd
      obtain rfl := List.mem_singleton.mp hd
      exact ⟨Or.inl rfl, by simp [LogDefine.system]⟩)
  refine ⟨s, hs, heffect.mpr ?_⟩
  intro d hd it hit
  obtain rfl := List.mem_singleton.mp hd
  obtain rfl := Option.some.inj hit
  rfl

/-- `system` wrote to the standard output; writing to a file too is not noticed. -/
theorem not_takesFullEffect_appenders :
    [LogDefines.one (.system [{}])].foldlM (setValue fun _ => true) (.initial .root) =
        some State.system ∧
      ¬TakesFullEffect (fun _ => true) State.system
        (.one (.system [{}, { type := 1, file := "system.txt" }])) := by
  refine ⟨rfl, ?_⟩
  have hset : setValue (fun _ => true) State.system
      (.one (.system [{}, { type := 1, file := "system.txt" }])) = some State.system := rfl
  rintro ⟨s', hs', heffect, -⟩
  obtain rfl : State.system = s' := Option.some.inj (hset.symm.trans hs')
  obtain ⟨l, hl, -, hspec⟩ := heffect _ (List.mem_singleton.mpr rfl)
  obtain rfl : Logger.system = l := by
    simpa [State.system, LoggerManager.setLogger, LogDefine.system] using hl
  have hlen := congrArg List.length hspec
  simp [LogDefine.system, Logger.system] at hlen

end Xzmjx.LogModel
