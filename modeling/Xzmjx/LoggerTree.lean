import Mathlib.Logic.Function.Basic
import Xzmjx.LogConfig
import Xzmjx.StepSystem

/-!
# Loggers that share appenders

Loggers and appenders are reached through pointers, and a call through one pointer shows through
all of them. An appender without a formatter of its own writes with one that it was handed: by
`addAppender`, if it had none, and by every `setFormatter` of a logger that it is attached to. The
specification looks the formatter up when something is logged.

A pointer is the number of the object. A formatter is of any type; `std` is what the constructor
of `LogFormatter` makes.
-/
namespace Xzmjx.LoggerTreeModel
open Function StepSystem
open LogModel (LogLevel)

/-- The enumerator's number. -/
def toNat : LogLevel → ℕ
  | .unknown => 0
  | .debug => 1
  | .info => 2
  | .warn => 3
  | .error => 4
  | .fatal => 5

structure LogAppender (φ : Type*) where
  formatter : Option φ := none
  level : LogLevel := .debug
  hasFormatter : Bool := false
  deriving DecidableEq, Repr

/-- A `Logger`; its formatter is a pointer, or a formatter in the specification. -/
structure Logger (ψ : Type*) where
  name : String
  level : LogLevel := .debug
  root : Option ℕ := none
  formatter : ψ
  appenders : List ℕ := []
  deriving DecidableEq, Repr

/-- What is written: by which appender, with which formatter, for which logger. -/
structure Output (φ : Type*) where
  appender : ℕ
  formatter : φ
  logger : ℕ
  deriving DecidableEq, Repr

/-- The objects and the loggers of the manager. -/
structure State (φ : Type*) where
  appenders : ℕ → LogAppender φ
  nextAppender : ℕ
  loggers : ℕ → Logger (Option φ)
  nextLogger : ℕ
  manager : String → Option ℕ

/-- The calls that change a logger or an appender. -/
inductive Op (φ : Type*)
  | newAppender
  | newLogger (name : String)
  | appenderSetFormatter (a : ℕ) (format : Option φ)
  | appenderSetLevel (a : ℕ) (level : LogLevel)
  | addAppender (l : ℕ) (a : Option ℕ)
  | delAppender (l a : ℕ)
  | clearAppender (l : ℕ)
  | setFormatter (l : ℕ) (format : Option φ)
  | setLevel (l : ℕ) (level : LogLevel)
  | setRoot (l : ℕ) (root : Option ℕ)
  | getLogger (name : String)
  | delLogger (name : String)
  deriving DecidableEq, Repr

namespace State
variable {φ : Type*}

def setAppender (s : State φ) (a : ℕ) (x : LogAppender φ) : State φ :=
  { s with appenders := update s.appenders a x }

def setLogger (s : State φ) (l : ℕ) (x : Logger (Option φ)) : State φ :=
  { s with loggers := update s.loggers l x }

/-- `LogAppender::setFormatter`. -/
def appenderSetFormatter (s : State φ) (a : ℕ) (format : Option φ) : State φ :=
  s.setAppender a { s.appenders a with formatter := format, hasFormatter := format.isSome }

/-- `Logger::addAppender`. -/
def addAppender (s : State φ) (l : ℕ) (a : Option ℕ) : State φ :=
  match a with
  | none => s
  | some a =>
      let x := s.appenders a
      let s :=
        if x.formatter.isNone && !x.hasFormatter then
          s.setAppender a { x with formatter := (s.loggers l).formatter }
        else s
      s.setLogger l { s.loggers l with appenders := (s.loggers l).appenders ++ [a] }

/-- `Logger::delAppender`, which erases the first. -/
def delAppender (s : State φ) (l a : ℕ) : State φ :=
  s.setLogger l { s.loggers l with appenders := (s.loggers l).appenders.erase a }

/-- `Logger::setFormatter` with a pointer. -/
def setFormatter (s : State φ) (l : ℕ) (format : Option φ) : State φ :=
  { s.setLogger l { s.loggers l with formatter := format } with
    appenders := fun a =>
      if a ∈ (s.loggers l).appenders ∧ (s.appenders a).hasFormatter = false then
        { s.appenders a with formatter := format }
      else s.appenders a }

/-- `LoggerManager::getLogger`, up to the pointer that it returns. -/
def getLogger (std : φ) (s : State φ) (name : String) : State φ :=
  match s.manager name with
  | some _ => s
  | none =>
      { s.setLogger s.nextLogger { name, root := some 0, formatter := some std } with
        nextLogger := s.nextLogger + 1
        manager := update s.manager name (some s.nextLogger) }

def exec (std : φ) (s : State φ) : Op φ → State φ
  | .newAppender =>
      { s.setAppender s.nextAppender {} with nextAppender := s.nextAppender + 1 }
  | .newLogger name =>
      { s.setLogger s.nextLogger { name, formatter := some std } with
        nextLogger := s.nextLogger + 1 }
  | .appenderSetFormatter a format => s.appenderSetFormatter a format
  | .appenderSetLevel a level => s.setAppender a { s.appenders a with level }
  | .addAppender l a => s.addAppender l a
  | .delAppender l a => s.delAppender l a
  | .clearAppender l => s.setLogger l { s.loggers l with appenders := [] }
  | .setFormatter l format => s.setFormatter l format
  | .setLevel l level => s.setLogger l { s.loggers l with level }
  | .setRoot l root => s.setLogger l { s.loggers l with root }
  | .getLogger name => s.getLogger std name
  | .delLogger name => { s with manager := update s.manager name none }

/-- `LoggerManager::LoggerManager`: the root logger, with the standard output. -/
def init (std : φ) : State φ where
  appenders := update (fun _ => {}) 0 { formatter := some std }
  nextAppender := 1
  loggers := update (fun _ => { name := "", formatter := some std }) 0
    { name := "root", formatter := some std, appenders := [0] }
  nextLogger := 1
  manager := update (fun _ => none) "root" (some 0)

/-- `log` of an appender; `none` where it goes through a null pointer. -/
def appenderLog (s : State φ) (l : ℕ) (level : LogLevel) (a : ℕ) : Option (List (Output φ)) :=
  if toNat (s.appenders a).level ≤ toNat level then
    (s.appenders a).formatter.map fun f => [⟨a, f, l⟩]
  else some []

/-- `Logger::log`; `none` where it goes through a null pointer, and where it passes through more
than `fuel` loggers. -/
def log : ℕ → State φ → ℕ → LogLevel → Option (List (Output φ))
  | 0, _, _, _ => none
  | fuel + 1, s, l, level =>
      if toNat (s.loggers l).level ≤ toNat level then
        if (s.loggers l).appenders = [] then
          (s.loggers l).root.bind fun root => log fuel s root level
        else ((s.loggers l).appenders.mapM (s.appenderLog l level)).map List.flatten
      else some []

end State

/-! ### Looking the formatter up -/

/-- An appender with the formatter that was set on it. -/
structure Sink (φ : Type*) where
  own : Option φ := none
  level : LogLevel := .debug
  deriving DecidableEq, Repr

structure View (φ : Type*) where
  appenders : ℕ → Sink φ
  nextAppender : ℕ
  loggers : ℕ → Logger φ
  nextLogger : ℕ
  manager : String → Option ℕ

namespace View
variable {φ : Type*}

def setLogger (v : View φ) (l : ℕ) (x : Logger φ) : View φ :=
  { v with loggers := update v.loggers l x }

def setAppender (v : View φ) (a : ℕ) (x : Sink φ) : View φ :=
  { v with appenders := update v.appenders a x }

/-- Nothing but what was asked for changes. -/
def exec (std : φ) (v : View φ) : Op φ → View φ
  | .newAppender =>
      { v.setAppender v.nextAppender {} with nextAppender := v.nextAppender + 1 }
  | .newLogger name =>
      { v.setLogger v.nextLogger { name, formatter := std } with nextLogger := v.nextLogger + 1 }
  | .appenderSetFormatter a format => v.setAppender a { v.appenders a with own := format }
  | .appenderSetLevel a level => v.setAppender a { v.appenders a with level }
  | .addAppender l a =>
      v.setLogger l { v.loggers l with appenders := (v.loggers l).appenders ++ a.toList }
  | .delAppender l a =>
      v.setLogger l { v.loggers l with appenders := (v.loggers l).appenders.erase a }
  | .clearAppender l => v.setLogger l { v.loggers l with appenders := [] }
  | .setFormatter l format =>
      v.setLogger l { v.loggers l with formatter := format.getD (v.loggers l).formatter }
  | .setLevel l level => v.setLogger l { v.loggers l with level }
  | .setRoot l root => v.setLogger l { v.loggers l with root }
  | .getLogger name =>
      match v.manager name with
      | some _ => v
      | none =>
          { v.setLogger v.nextLogger { name, root := some 0, formatter := std } with
            nextLogger := v.nextLogger + 1
            manager := update v.manager name (some v.nextLogger) }
  | .delLogger name => { v with manager := update v.manager name none }

def init (std : φ) : View φ where
  appenders := fun _ => {}
  nextAppender := 1
  loggers := update (fun _ => { name := "", formatter := std }) 0
    { name := "root", formatter := std, appenders := [0] }
  nextLogger := 1
  manager := update (fun _ => none) "root" (some 0)

/-- What an event of the level makes the logger write: every appender that takes the level, with
its own formatter or else the one that the logger has now; the root's where there is none. -/
def log : ℕ → View φ → ℕ → LogLevel → Option (List (Output φ))
  | 0, _, _, _ => none
  | fuel + 1, v, l, level =>
      if toNat (v.loggers l).level ≤ toNat level then
        if (v.loggers l).appenders = [] then
          (v.loggers l).root.bind fun root => log fuel v root level
        else some (((v.loggers l).appenders.filter fun a =>
          toNat (v.appenders a).level ≤ toNat level).map fun a =>
            ⟨a, (v.appenders a).own.getD (v.loggers l).formatter, l⟩)
      else some []

end View

/-! ### The cache -/

section
variable {φ : Type*} {s : State φ} {v : View φ} {std : φ}

/-- An appender without a formatter of its own is attached to one logger, and not again after it
was taken off; formatters are no null pointers, and pointers come from the constructors. -/
def Proper (s : State φ) : Op φ → Prop
  | .appenderSetFormatter _ format => format.isSome = true
  | .setFormatter _ format => format.isSome = true
  | .addAppender l (some a) =>
      a < s.nextAppender ∧ ((s.appenders a).hasFormatter = true ∨
        (s.appenders a).formatter = none ∨ a ∈ (s.loggers l).appenders)
  | _ => True

instance (s : State φ) : DecidablePred (Proper s)
  | .appenderSetFormatter _ format => inferInstanceAs (Decidable (format.isSome = true))
  | .setFormatter _ format => inferInstanceAs (Decidable (format.isSome = true))
  | .addAppender l (some a) =>
      inferInstanceAs (Decidable (a < s.nextAppender ∧ ((s.appenders a).hasFormatter = true ∨
        (s.appenders a).formatter = none ∨ a ∈ (s.loggers l).appenders)))
  | .newAppender | .newLogger _ | .appenderSetLevel _ _ | .addAppender _ none
  | .delAppender _ _ | .clearAppender _ | .setLevel _ _ | .setRoot _ _ | .getLogger _
  | .delLogger _ => isTrue trivial

/-- What the objects hold is what a look would find. -/
structure Refines (s : State φ) (v : View φ) : Prop where
  nextAppender : s.nextAppender = v.nextAppender
  nextLogger : s.nextLogger = v.nextLogger
  manager : s.manager = v.manager
  loggers : ∀ l, s.loggers l = { v.loggers l with formatter := some (v.loggers l).formatter }
  level : ∀ a, (s.appenders a).level = (v.appenders a).level
  hasFormatter : ∀ a, (s.appenders a).hasFormatter = (v.appenders a).own.isSome
  own : ∀ a f, (v.appenders a).own = some f → (s.appenders a).formatter = some f
  cached : ∀ l a, a ∈ (v.loggers l).appenders → (v.appenders a).own = none →
    (s.appenders a).formatter = some (v.loggers l).formatter
  exclusive : ∀ l l' a, a ∈ (v.loggers l).appenders → a ∈ (v.loggers l').appenders →
    (v.appenders a).own = none → l = l'
  attached : ∀ l a, a ∈ (v.loggers l).appenders → a < v.nextAppender

theorem State.setFormatter_level (s : State φ) (l : ℕ) (format : Option φ) (a : ℕ) :
    ((s.setFormatter l format).appenders a).level = (s.appenders a).level := by
  simp only [State.setFormatter]
  split <;> rfl

theorem State.setFormatter_hasFormatter (s : State φ) (l : ℕ) (format : Option φ) (a : ℕ) :
    ((s.setFormatter l format).appenders a).hasFormatter = (s.appenders a).hasFormatter := by
  simp only [State.setFormatter]
  split <;> rfl

namespace Refines

theorem init (std : φ) : Refines (State.init std) (View.init std) where
  nextAppender := rfl
  nextLogger := rfl
  manager := rfl
  loggers l := by
    by_cases hl : l = 0
    · subst hl
      simp [State.init, View.init]
    · simp [State.init, View.init, hl]
  level a := by
    by_cases ha : a = 0
    · subst ha
      simp [State.init, View.init]
    · simp [State.init, View.init, ha]
  hasFormatter a := by
    by_cases ha : a = 0
    · subst ha
      simp [State.init, View.init]
    · simp [State.init, View.init, ha]
  own a f hf := by simp [View.init] at hf
  cached l a ha _ := by
    by_cases hl : l = 0
    · subst hl
      have ha : a = 0 := by simpa [View.init] using ha
      subst ha
      simp [State.init, View.init]
    · simp [View.init, hl] at ha
  exclusive l l' a hl hl' _ := by
    have eq_zero : ∀ k, a ∈ ((View.init std).loggers k).appenders → k = 0 := by
      intro k hk
      by_contra hne
      simp [View.init, hne] at hk
    rw [eq_zero l hl, eq_zero l' hl']
  attached l a ha := by
    by_cases hl : l = 0
    · subst hl
      have ha : a = 0 := by simpa [View.init] using ha
      subst ha
      exact Nat.one_pos
    · simp [View.init, hl] at ha

/-- A logger may be replaced by one whose appenders take its formatter and no other logger's. -/
theorem setLogger (h : Refines s v) {l : ℕ} {x : Logger φ}
    (hatt : ∀ a ∈ x.appenders, a < v.nextAppender)
    (hx : ∀ a ∈ x.appenders, (v.appenders a).own = none →
      (s.appenders a).formatter = some x.formatter ∧
        ∀ l', a ∈ (v.loggers l').appenders → l' = l) :
    Refines (s.setLogger l { x with formatter := some x.formatter }) (v.setLogger l x) where
  nextAppender := h.nextAppender
  nextLogger := h.nextLogger
  manager := h.manager
  loggers k := by
    by_cases hk : k = l
    · subst hk
      simp [State.setLogger, View.setLogger]
    · simp [State.setLogger, View.setLogger, hk, h.loggers k]
  level := h.level
  hasFormatter := h.hasFormatter
  own := h.own
  cached k a ha hown := by
    by_cases hk : k = l
    · subst hk
      simp only [View.setLogger, update_self] at ha ⊢
      exact (hx a ha hown).1
    · simp only [View.setLogger, update_of_ne hk] at ha ⊢
      exact h.cached k a ha hown
  exclusive k k' a ha ha' hown := by
    by_cases hk : k = l <;> by_cases hk' : k' = l
    · rw [hk, hk']
    · subst hk
      simp only [View.setLogger, update_self, update_of_ne hk'] at ha ha'
      exact ((hx a ha hown).2 k' ha').symm
    · subst hk'
      simp only [View.setLogger, update_self, update_of_ne hk] at ha ha'
      exact (hx a ha' hown).2 k ha
    · simp only [View.setLogger, update_of_ne hk, update_of_ne hk'] at ha ha'
      exact h.exclusive k k' a ha ha' hown
  attached k a ha := by
    by_cases hk : k = l
    · subst hk
      simp only [View.setLogger, update_self] at ha
      exact hatt a ha
    · simp only [View.setLogger, update_of_ne hk] at ha
      exact h.attached k a ha

/-- In particular by one with no appender that it did not have, and the same formatter. -/
theorem setLogger_of_subset (h : Refines s v) {l : ℕ} {x : Logger φ}
    (hsub : x.appenders ⊆ (v.loggers l).appenders)
    (hf : x.appenders = [] ∨ x.formatter = (v.loggers l).formatter) :
    Refines (s.setLogger l { x with formatter := some x.formatter }) (v.setLogger l x) := by
  refine h.setLogger (fun a ha => h.attached l a (hsub ha)) fun a ha hown => ⟨?_, fun l' hl' =>
    h.exclusive l' l a hl' (hsub ha) hown⟩
  obtain hnil | hf := hf
  · simp [hnil] at ha
  · rw [hf]
    exact h.cached l a (hsub ha) hown

/-- An appender may be replaced by one that has the formatter set on it, or what the loggers that
it is attached to have. -/
theorem setAppender (h : Refines s v) {a : ℕ} {x : LogAppender φ} {y : Sink φ}
    (hlevel : x.level = y.level) (hhas : x.hasFormatter = y.own.isSome)
    (hown : ∀ f, y.own = some f → x.formatter = some f)
    (hcached : ∀ l, a ∈ (v.loggers l).appenders → y.own = none →
      (v.appenders a).own = none ∧ x.formatter = some (v.loggers l).formatter) :
    Refines (s.setAppender a x) (v.setAppender a y) where
  nextAppender := h.nextAppender
  nextLogger := h.nextLogger
  manager := h.manager
  loggers := h.loggers
  level b := by
    by_cases hb : b = a
    · subst hb
      simpa [State.setAppender, View.setAppender] using hlevel
    · simp [State.setAppender, View.setAppender, hb, h.level b]
  hasFormatter b := by
    by_cases hb : b = a
    · subst hb
      simpa [State.setAppender, View.setAppender] using hhas
    · simp [State.setAppender, View.setAppender, hb, h.hasFormatter b]
  own b f hf := by
    by_cases hb : b = a
    · subst hb
      simp only [State.setAppender, View.setAppender, update_self] at hf ⊢
      exact hown f hf
    · simp only [State.setAppender, View.setAppender, update_of_ne hb] at hf ⊢
      exact h.own b f hf
  cached l b hm hnone := by
    by_cases hb : b = a
    · subst hb
      simp only [State.setAppender, View.setAppender, update_self] at hnone ⊢
      exact (hcached l hm hnone).2
    · simp only [State.setAppender, View.setAppender, update_of_ne hb] at hnone ⊢
      exact h.cached l b hm hnone
  exclusive l l' b hl hl' hnone := by
    by_cases hb : b = a
    · subst hb
      simp only [View.setAppender, update_self] at hnone
      exact h.exclusive l l' b hl hl' (hcached l hl hnone).1
    · simp only [View.setAppender, update_of_ne hb] at hnone
      exact h.exclusive l l' b hl hl' hnone
  attached := h.attached

/-- The constructor of an appender: nothing points to the object yet. -/
theorem newAppender (h : Refines s v) :
    Refines (s.exec std .newAppender) (v.exec std .newAppender) := by
  have fresh : ∀ l, v.nextAppender ∉ (v.loggers l).appenders := fun l hl =>
    (h.attached l _ hl).false
  have hset : Refines (s.setAppender v.nextAppender {}) (v.setAppender v.nextAppender {}) :=
    h.setAppender rfl rfl (fun f hf => by simp at hf) fun l hl => absurd hl (fresh l)
  simp only [State.exec, View.exec, h.nextAppender]
  exact { hset with
    nextAppender := rfl
    attached := fun l a ha => Nat.lt_succ_of_lt (hset.attached l a ha) }

theorem appenderSetFormatter (h : Refines s v) (a : ℕ) {format : Option φ}
    (hf : format.isSome = true) :
    Refines (s.appenderSetFormatter a format)
      (v.setAppender a { v.appenders a with own := format }) := by
  refine h.setAppender (h.level a) rfl (fun f hown => hown) fun l _ hnone => ?_
  change format = none at hnone
  simp [hnone] at hf

theorem own_eq_none (h : Refines s v) {a : ℕ} :
    (v.appenders a).own = none ↔ (s.appenders a).hasFormatter = false := by
  rw [h.hasFormatter a, Option.isSome_eq_false_iff, Option.isNone_iff_eq_none]

/-- An appender without a formatter is attached to no logger, and takes the one that it is lent. -/
theorem lend (h : Refines s v) {a : ℕ} (l : ℕ) (hhas : (s.appenders a).hasFormatter = false)
    (hnull : (s.appenders a).formatter = none) :
    (∀ l', a ∉ (v.loggers l').appenders) ∧
      Refines (s.setAppender a { s.appenders a with formatter := (s.loggers l).formatter }) v := by
  have hown := h.own_eq_none.mpr hhas
  have hfree : ∀ l', a ∉ (v.loggers l').appenders := by
    intro l' hl'
    have hcached := h.cached l' a hl' hown
    simp [hnull] at hcached
  have hv : v.setAppender a (v.appenders a) = v := by
    simp [View.setAppender]
  refine ⟨hfree, ?_⟩
  rw [← hv]
  refine h.setAppender (h.level a) (h.hasFormatter a) ?_ fun l' hl' _ => absurd hl' (hfree l')
  intro f hf
  simp [hown] at hf

/-- One more appender, which has a formatter of its own or the logger's and is not shared. -/
theorem attach (h : Refines s v) {l a : ℕ} (ha : a < v.nextAppender)
    (hx : (v.appenders a).own = none →
      (s.appenders a).formatter = some (v.loggers l).formatter ∧
        ∀ l', a ∈ (v.loggers l').appenders → l' = l) :
    Refines (s.setLogger l { s.loggers l with appenders := (s.loggers l).appenders ++ [a] })
      (v.setLogger l { v.loggers l with appenders := (v.loggers l).appenders ++ [a] }) := by
  rw [h.loggers l]
  refine h.setLogger (x := { v.loggers l with appenders := (v.loggers l).appenders ++ [a] }) ?_ ?_
  · intro b hb
    obtain hb | hb := List.mem_append.mp hb
    · exact h.attached l b hb
    · rwa [List.mem_singleton.mp hb]
  · intro b hb hown
    obtain hb | hb := List.mem_append.mp hb
    · exact ⟨h.cached l b hb hown, fun l' hl' => h.exclusive l' l b hl' hb hown⟩
    · rw [List.mem_singleton.mp hb] at hown ⊢
      exact hx hown

/-- `Logger::addAppender` of an appender that the logger may have. -/
theorem addAppender (h : Refines s v) (l : ℕ) {a : Option ℕ} (hp : Proper s (.addAppender l a)) :
    Refines (s.addAppender l a) (v.exec std (.addAppender l a)) := by
  cases a with
  | none =>
      have hv : v.exec std (.addAppender l none) = v := by
        simp [View.exec, View.setLogger]
      rw [hv]
      exact h
  | some a =>
      obtain ⟨hnew, hmay⟩ := hp
      rw [h.nextAppender] at hnew
      by_cases hfresh : (s.appenders a).formatter = none ∧ (s.appenders a).hasFormatter = false
      · obtain ⟨hfree, hlent⟩ := h.lend l hfresh.2 hfresh.1
        have hlend : ((s.appenders a).formatter.isNone &&
            !(s.appenders a).hasFormatter) = true := by
          simp [hfresh]
        simp only [State.addAppender, hlend, if_true]
        refine hlent.attach hnew fun _ => ⟨?_, fun l' hl' => absurd hl' (hfree l')⟩
        simp [State.setAppender, h.loggers l]
      · have hkeep : ((s.appenders a).formatter.isNone &&
            !(s.appenders a).hasFormatter) = false := by
          simpa using hfresh
        simp only [State.addAppender, hkeep, Bool.false_eq_true, if_false]
        refine h.attach hnew fun hown => ?_
        have hhas := h.own_eq_none.mp hown
        have hmem : a ∈ (v.loggers l).appenders := by
          obtain hset | hnull | hmem := hmay
          · simp [hset] at hhas
          · exact absurd ⟨hnull, hhas⟩ hfresh
          · rwa [h.loggers l] at hmem
        exact ⟨h.cached l a hmem hown, fun l' hl' => h.exclusive l' l a hl' hmem hown⟩

/-- `Logger::setFormatter` hands the formatter to what the logger alone has. -/
theorem setFormatter (h : Refines s v) (l : ℕ) (f : φ) :
    Refines (s.setFormatter l (some f))
      (v.setLogger l { v.loggers l with formatter := f }) where
  nextAppender := h.nextAppender
  nextLogger := h.nextLogger
  manager := h.manager
  loggers k := by
    by_cases hk : k = l
    · subst hk
      simp [State.setFormatter, State.setLogger, View.setLogger, h.loggers k]
    · simp [State.setFormatter, State.setLogger, View.setLogger, hk, h.loggers k]
  level a := (State.setFormatter_level s l (some f) a).trans (h.level a)
  hasFormatter a := (State.setFormatter_hasFormatter s l (some f) a).trans (h.hasFormatter a)
  own a g hg := by
    have hset : (s.appenders a).hasFormatter = true := by
      rw [h.hasFormatter a]
      exact Option.isSome_iff_exists.mpr ⟨g, hg⟩
    simpa [State.setFormatter, hset] using h.own a g hg
  cached k a ha hown := by
    have hhas := h.own_eq_none.mp hown
    have hmem : a ∈ (v.loggers k).appenders := by
      by_cases hk : k = l
      · subst hk
        simpa [View.setLogger] using ha
      · simpa [View.setLogger, hk] using ha
    by_cases hk : k = l
    · subst hk
      simp [State.setFormatter, View.setLogger, h.loggers k, hmem, hhas]
    · have hnot : a ∉ (v.loggers l).appenders := fun hl => hk (h.exclusive k l a hmem hl hown)
      simp [State.setFormatter, View.setLogger, h.loggers l, hnot, hk, h.cached k a hmem hown]
  exclusive k k' a ha ha' hown := by
    have hmem : ∀ j, a ∈ ((v.setLogger l { v.loggers l with formatter := f }).loggers j).appenders →
        a ∈ (v.loggers j).appenders := by
      intro j hj
      by_cases hk : j = l
      · subst hk
        simpa [View.setLogger] using hj
      · simpa [View.setLogger, hk] using hj
    exact h.exclusive k k' a (hmem k ha) (hmem k' ha') hown
  attached k a ha := by
    by_cases hk : k = l
    · subst hk
      exact h.attached k a (by simpa [View.setLogger] using ha)
    · exact h.attached k a (by simpa [View.setLogger, hk] using ha)

/-- The constructor of a logger, with the root that it is given. -/
theorem newLogger (std : φ) (h : Refines s v) (name : String) (root : Option ℕ)
    (m : String → Option ℕ) :
    Refines
      { s.setLogger s.nextLogger { name, root, formatter := some std } with
        nextLogger := s.nextLogger + 1, manager := m }
      { v.setLogger v.nextLogger { name, root, formatter := std } with
        nextLogger := v.nextLogger + 1, manager := m } := by
  rw [h.nextLogger]
  have hset : Refines (s.setLogger v.nextLogger { name, root, formatter := some std })
      (v.setLogger v.nextLogger { name, root, formatter := std }) :=
    h.setLogger_of_subset (x := { name, root, formatter := std }) (List.nil_subset _) (Or.inl rfl)
  exact { hset with nextLogger := rfl, manager := rfl }

theorem getLogger (h : Refines s v) (name : String) :
    Refines (s.getLogger std name) (v.exec std (.getLogger name)) := by
  have hm : s.manager name = v.manager name := by rw [h.manager]
  cases hfound : v.manager name with
  | some l => simpa only [State.getLogger, View.exec, hm, hfound] using h
  | none =>
      simp only [State.getLogger, View.exec, hm, hfound, h.manager]
      rw [← h.nextLogger]
      have hnew := newLogger std h name (some 0)
        (update v.manager name (some s.nextLogger))
      rwa [← h.nextLogger] at hnew

/-- Every call that is proper keeps the cache. -/
theorem exec (h : Refines s v) (o : Op φ) (hp : Proper s o) :
    Refines (s.exec std o) (v.exec std o) := by
  cases o with
  | newAppender => exact h.newAppender
  | newLogger name =>
      exact { newLogger std h name none s.manager with manager := h.manager }
  | appenderSetFormatter a format => exact h.appenderSetFormatter a hp
  | appenderSetLevel a level =>
      refine h.setAppender rfl (h.hasFormatter a) (h.own a) fun l hl hown => ?_
      exact ⟨hown, h.cached l a hl hown⟩
  | addAppender l a => exact h.addAppender l hp
  | delAppender l a =>
      have hdel := h.setLogger_of_subset (l := l)
        (x := { v.loggers l with appenders := (v.loggers l).appenders.erase a })
        List.erase_subset (Or.inr rfl)
      simpa only [State.exec, State.delAppender, View.exec, h.loggers l] using hdel
  | clearAppender l =>
      have hclear := h.setLogger_of_subset (l := l)
        (x := { v.loggers l with appenders := [] }) (List.nil_subset _) (Or.inl rfl)
      simpa only [State.exec, View.exec, h.loggers l] using hclear
  | setFormatter l format =>
      obtain ⟨f, rfl⟩ := Option.isSome_iff_exists.mp hp
      exact h.setFormatter l f
  | setLevel l level =>
      have hlevel := h.setLogger_of_subset (l := l)
        (x := { v.loggers l with level }) (List.Subset.refl _) (Or.inr rfl)
      simpa only [State.exec, View.exec, h.loggers l] using hlevel
  | setRoot l root =>
      have hroot := h.setLogger_of_subset (l := l)
        (x := { v.loggers l with root }) (List.Subset.refl _) (Or.inr rfl)
      simpa only [State.exec, View.exec, h.loggers l] using hroot
  | getLogger name => exact h.getLogger name
  | delLogger name => exact { h with manager := by simp only [State.exec, View.exec, h.manager] }

/-- An appender that takes the level writes with what a look finds. -/
theorem appenderLog (h : Refines s v) {l a : ℕ} (level : LogLevel)
    (ha : a ∈ (v.loggers l).appenders) :
    s.appenderLog l level a =
      some (if toNat (v.appenders a).level ≤ toNat level then
        [⟨a, (v.appenders a).own.getD (v.loggers l).formatter, l⟩] else []) := by
  have hf : (s.appenders a).formatter =
      some ((v.appenders a).own.getD (v.loggers l).formatter) := by
    cases hown : (v.appenders a).own with
    | none => exact h.cached l a ha hown
    | some f => exact h.own a f hown
  rw [State.appenderLog, h.level a, hf]
  split <;> rfl

/-- So do any of the appenders of a logger. -/
theorem appendersLog (h : Refines s v) {l : ℕ} (level : LogLevel) {as : List ℕ}
    (has : as ⊆ (v.loggers l).appenders) :
    (as.mapM (s.appenderLog l level)).map List.flatten =
      some ((as.filter fun a => toNat (v.appenders a).level ≤ toNat level).map fun a =>
        ⟨a, (v.appenders a).own.getD (v.loggers l).formatter, l⟩) := by
  induction as with
  | nil => rfl
  | cons a as ih =>
      obtain ⟨ha, has⟩ := List.cons_subset.mp has
      obtain ⟨rest, hrest, hflat⟩ := Option.map_eq_some_iff.mp (ih has)
      rw [List.mapM_cons, h.appenderLog level ha, hrest]
      by_cases htakes : toNat (v.appenders a).level ≤ toNat level <;> simp [htakes, hflat]

/-- What a logger writes is what a look finds. -/
theorem log (h : Refines s v) (fuel : ℕ) (l : ℕ) (level : LogLevel) :
    s.log fuel l level = v.log fuel l level := by
  induction fuel generalizing l with
  | zero => rfl
  | succ fuel ih =>
      simp only [State.log, View.log, h.loggers l]
      split_ifs with hlevel hnone
      · exact congrArg _ (funext ih)
      · exact h.appendersLog level (List.Subset.refl _)
      · rfl

end Refines

/-- Whatever is called, as long as no appender without a formatter of its own is shared or attached
again, a logger writes what looking the formatters up when it writes would give: each appender that
takes the level, with its own formatter or else with the one that the logger was given last. -/
theorem log_eq_lookup (ops : List (Op φ))
    (hp : AllSteps (fun s o => some (s.exec std o)) Proper (State.init std) ops)
    (fuel l : ℕ) (level : LogLevel) :
    (ops.foldl (State.exec std) (State.init std)).log fuel l level =
      (ops.foldl (View.exec std) (View.init std)).log fuel l level := by
  obtain ⟨t, hrun, href⟩ := run_refines (G := Proper) Refines (View.exec std)
    (fun s _ o h hp => ⟨s.exec std o, rfl, h.exec o hp⟩) (Refines.init std) hp
  obtain rfl := Option.some.inj ((run_total (State.exec std) _ ops).symm.trans hrun)
  exact href.log fuel l level

/-- The root and a file of its own for one other logger, while both are given new formatters. -/
theorem log_eq_lookup_two :
    let ops : List (Op ℕ) := [.newAppender, .getLogger "system", .addAppender 1 (some 1),
      .setFormatter 1 (some 7), .newAppender, .appenderSetFormatter 2 (some 8),
      .addAppender 0 (some 2), .addAppender 1 (some 2), .setFormatter 0 (some 9)]
    (ops.foldl (State.exec 5) (State.init 5)).log 2 1 .info =
      some [⟨1, 7, 1⟩, ⟨2, 8, 1⟩] := by
  intro ops
  rw [log_eq_lookup ops (by decide) 2 1 .info]
  decide

/-- With a shared appender the root writes in the format that another logger was given. -/
example :
    let ops : List (Op ℕ) :=
      [.getLogger "system", .addAppender 1 (some 0), .setFormatter 1 (some 7)]
    (ops.foldl (State.exec 5) (State.init 5)).log 1 0 .info = some [⟨0, 7, 0⟩] ∧
      (ops.foldl (View.exec 5) (View.init 5)).log 1 0 .info = some [⟨0, 5, 0⟩] := by
  decide

end

end Xzmjx.LoggerTreeModel
