import Mathlib.Logic.Function.Basic
import Xzmjx.Linearization

/-!
# The registry of configuration variables

`Config::Lookup` with a default value looks the name up under the read lock, and when there is no
variable it drops that lock, checks the name, takes the write lock, looks the name up once more,
and only then creates the variable. The locked parts are the steps of a run; any number of threads
take them in any order. A type is a tag, and the cast of `dynamic_pointer_cast` compares tags; a
variable is the number of its construction, with what it was constructed from.
-/
namespace Xzmjx.ConfigLookupModel
open StepSystem Linearization

structure ConfigVar (τ ν : Type*) where
  id : ℕ
  name : String
  description : String
  type : τ
  default : ν
  deriving DecidableEq, Repr

/-- The characters that a name may have. -/
def nameChars : List Char := "abcdefghijklmnopqrstuvwxyz._1234567890".toList

/-- `find_first_not_of(nameChars) == npos`. -/
def validName (name : String) : Bool := name.toList.all fun c => c ∈ nameChars

/-- What the constructor of `ConfigBase` makes of a name. -/
def lowerName (name : String) : String := String.ofList (name.toList.map Char.toLower)

/-- `GetConfigMap()`, and how many variables have been constructed. -/
structure Config (τ ν : Type*) where
  map : String → Option (ConfigVar τ ν)
  next : ℕ

/-- A call: `Lookup` with a default value, `Lookup` without one, or `LookupBase`. -/
inductive Request (τ ν : Type*)
  | lookup (name : String) (type : τ) (default : ν) (description : String)
  | find (name : String) (type : τ)
  | lookupBase (name : String)
  deriving DecidableEq, Repr

def Request.name {τ ν : Type*} : Request τ ν → String
  | .lookup name _ _ _ => name
  | .find name _ => name
  | .lookupBase name => name

/-- The type that a call casts to. -/
def Request.type {τ ν : Type*} : Request τ ν → Option τ
  | .lookup _ type _ _ => some type
  | .find _ type => some type
  | .lookupBase _ => none

/-- What a call ends with: a pointer, or `std::invalid_argument`. -/
inductive Reply (τ ν : Type*)
  | var (v : Option (ConfigVar τ ν))
  | invalid
  deriving DecidableEq, Repr

section
variable {ι τ ν : Type*} [DecidableEq ι] [DecidableEq τ]

/-- `std::dynamic_pointer_cast<ConfigVar<T>>`. -/
def ConfigVar.cast (v : ConfigVar τ ν) (type : τ) : Option (ConfigVar τ ν) :=
  if v.type = type then some v else none

namespace Config

/-- `GetConfigMap()[name] = std::make_shared<ConfigVar<T>>(name, defaultVal, description)`. -/
def construct (c : Config τ ν) (name : String) (type : τ) (default : ν) (description : String) :
    Config τ ν × ConfigVar τ ν :=
  let val : ConfigVar τ ν := ⟨c.next, lowerName name, description, type, default⟩
  (⟨Function.update c.map name (some val), c.next + 1⟩, val)

/-- The part of `Lookup` under the write lock. -/
def lookupLocked (c : Config τ ν) (name : String) (type : τ) (default : ν)
    (description : String) : Config τ ν × Reply τ ν :=
  match c.map name with
  | some v => (c, .var (v.cast type))
  | none =>
      let (c, val) := c.construct name type default description
      (c, .var (some val))

end Config

/-- The registry and the threads between the two locked parts of `Lookup`. -/
structure State (ι τ ν : Type*) where
  config : Config τ ν
  creating : ι → Option (Request τ ν)

inductive Action (ι τ ν : Type*)
  | call (thread : ι) (request : Request τ ν)
  | create (thread : ι)

def Config.init : Config τ ν := ⟨fun _ => none, 0⟩

def init : State ι τ ν := ⟨.init, fun _ => none⟩

/-- A call up to the end of its read-locked part, and the check of the name. -/
def Config.begin (c : Config τ ν) : Request τ ν → Option (Reply τ ν)
  | .lookup name type _ _ =>
      match c.map name with
      | some v => some (.var (v.cast type))
      | none => if validName name then none else some .invalid
  | .find name type =>
      match c.map name with
      | some v => some (.var (v.cast type))
      | none => some (.var none)
  | .lookupBase name => some (.var (c.map name))

/-- One locked part: the state behind it, and the call that has ended with it. `none` where the
thread is not at that point. -/
def exec (s : State ι τ ν) : Action ι τ ν → Option (State ι τ ν × List (Request τ ν × Reply τ ν))
  | .call thread request =>
      if s.creating thread = none then
        match s.config.begin request with
        | some reply => some (s, [(request, reply)])
        | none => some ({ s with creating := Function.update s.creating thread (some request) }, [])
      else none
  | .create thread =>
      match s.creating thread with
      | some (.lookup name type default description) =>
          let (config, reply) := s.config.lookupLocked name type default description
          some (⟨config, Function.update s.creating thread none⟩,
            [(.lookup name type default description, reply)])
      | _ => none

def step (s : State ι τ ν) (a : Action ι τ ν) : Option (State ι τ ν) := (exec s a).map Prod.fst

/-- The calls that end with a step. -/
def ended (s : State ι τ ν) (a : Action ι τ ν) : List (Request τ ν × Reply τ ν) :=
  (exec s a).elim [] Prod.snd

/-! ### A registry that is used by one caller at a time -/

/-- A whole call at once. -/
def Config.perform (c : Config τ ν) (request : Request τ ν) : Config τ ν × Reply τ ν :=
  match request with
  | .lookup name type default description =>
      match c.map name with
      | some v => (c, .var (v.cast type))
      | none =>
          if validName name then
            let (c, val) := c.construct name type default description
            (c, .var (some val))
          else (c, .invalid)
  | .find name type => (c, .var ((c.map name).bind fun v => v.cast type))
  | .lookupBase name => (c, .var (c.map name))

omit [DecidableEq ι] in
theorem exec_of_step {s s' : State ι τ ν} {a : Action ι τ ν} [DecidableEq ι]
    (h : step s a = some s') : exec s a = some (s', ended s a) := by
  obtain ⟨⟨t, es⟩, hexec, rfl⟩ := Option.map_eq_some_iff.mp h
  rw [ended, hexec]
  rfl

/-! ### A registry in order -/

/-- Every variable is registered under its own name, which is valid, and under no other. -/
structure WellFormed (c : Config τ ν) : Prop where
  named : ∀ name v, c.map name = some v → v.name = name
  valid : ∀ name v, c.map name = some v → validName name = true
  fresh : ∀ name v, c.map name = some v → v.id < c.next
  unique : ∀ name name' v v', c.map name = some v → c.map name' = some v' → v.id = v'.id →
    name = name'

theorem lowerName_of_valid {name : String} (h : validName name = true) : lowerName name = name := by
  have hall : (nameChars.all fun c => c.toLower == c) = true := rfl
  have hchars : ∀ c ∈ nameChars, c.toLower = c := fun c hc =>
    eq_of_beq (List.all_eq_true.mp hall c hc)
  have hmap : name.toList.map Char.toLower = name.toList := by
    refine (List.map_congr_left fun c hc => ?_).trans (List.map_id _)
    exact hchars c (of_decide_eq_true (List.all_eq_true.mp h c hc))
  rw [lowerName, hmap, String.ofList_toList]

variable {c : Config τ ν} {request : Request τ ν}

omit [DecidableEq τ] in
theorem construct_map (c : Config τ ν) (name : String) (type : τ) (default : ν)
    (description n : String) : (c.construct name type default description).1.map n =
      if n = name then some (c.construct name type default description).2 else c.map n :=
  Function.update_apply _ _ _ _

/-- A call leaves the registry as it is, or registers one variable more. -/
theorem perform_cases (c : Config τ ν) (request : Request τ ν) :
    (c.perform request).1 = c ∨
      ∃ name type default description, request = .lookup name type default description ∧
        c.map name = none ∧ validName name = true ∧
        c.perform request = ((c.construct name type default description).1,
          .var (some (c.construct name type default description).2)) := by
  cases request with
  | lookup name type default description =>
      cases hmap : c.map name with
      | some v =>
          left
          simp only [Config.perform, hmap]
      | none =>
          cases hvalid : validName name with
          | false =>
              left
              simp [Config.perform, hmap, hvalid]
          | true =>
              right
              refine ⟨name, type, default, description, rfl, hmap, hvalid, ?_⟩
              simp only [Config.perform, hmap, hvalid, if_true]
  | find name type => exact .inl rfl
  | lookupBase name => exact .inl rfl

/-- What is registered stays. -/
theorem perform_map {name : String} {v : ConfigVar τ ν} (h : c.map name = some v) :
    (c.perform request).1.map name = some v := by
  rcases perform_cases c request with heq | ⟨name', type, default, description, rfl, hnone, -, heq⟩
  · rw [heq]
    exact h
  · have hne : name ≠ name' := by
      rintro rfl
      rw [h] at hnone
      cases hnone
    rw [heq]
    exact (Function.update_of_ne hne _ _).trans h

omit [DecidableEq τ] in
theorem WellFormed.init : WellFormed (Config.init : Config τ ν) where
  named _ _ h := by cases h
  valid _ _ h := by cases h
  fresh _ _ h := by cases h
  unique _ _ _ _ h := by cases h

omit [DecidableEq τ] in
theorem WellFormed.construct (h : WellFormed c) {name : String} (hvalid : validName name = true)
    (type : τ) (default : ν) (description : String) :
    WellFormed (c.construct name type default description).1 := by
  have hcases : ∀ n v, (c.construct name type default description).1.map n = some v →
      (n = name ∧ v = (c.construct name type default description).2) ∨ c.map n = some v := by
    intro n v hv
    rw [construct_map] at hv
    split_ifs at hv with hn
    · exact .inl ⟨hn, (Option.some.inj hv).symm⟩
    · exact .inr hv
  refine ⟨?_, ?_, ?_, ?_⟩
  · intro n v hv
    rcases hcases n v hv with ⟨rfl, rfl⟩ | hold
    · exact lowerName_of_valid hvalid
    · exact h.named n v hold
  · intro n v hv
    rcases hcases n v hv with ⟨rfl, -⟩ | hold
    · exact hvalid
    · exact h.valid n v hold
  · intro n v hv
    rcases hcases n v hv with ⟨-, rfl⟩ | hold
    · exact Nat.lt_succ_self c.next
    · exact Nat.lt_succ_of_lt (h.fresh n v hold)
  · intro n n' v v' hv hv' hid
    rcases hcases n v hv with ⟨rfl, rfl⟩ | hold
    · rcases hcases n' v' hv' with ⟨rfl, -⟩ | hold'
      · rfl
      · exact absurd (h.fresh n' v' hold') (hid ▸ Nat.lt_irrefl _)
    · rcases hcases n' v' hv' with ⟨rfl, rfl⟩ | hold'
      · exact absurd (h.fresh n v hold) (hid ▸ Nat.lt_irrefl _)
      · exact h.unique n n' v v' hold hold' hid

theorem WellFormed.perform (h : WellFormed c) (request : Request τ ν) :
    WellFormed (c.perform request).1 := by
  rcases perform_cases c request with heq | ⟨name, type, default, description, -, -, hvalid, heq⟩
  · rw [heq]
    exact h
  · rw [heq]
    exact h.construct hvalid type default description

/-! ### What the answers say -/

/-- An answered call against the registry: a variable that it was given is the one of its name
and has the type that was asked for; it was given none although it would have created one because
the name has another type; and it threw because the name is invalid. -/
structure Answered (c : Config τ ν) (e : Request τ ν × Reply τ ν) : Prop where
  given : ∀ v, e.2 = .var (some v) → c.map e.1.name = some v
  typed : ∀ v t, e.2 = .var (some v) → e.1.type = some t → v.type = t
  refused : ∀ name type default description,
    e = (.lookup name type default description, .var none) → ∃ v, c.map name = some v ∧ v.type ≠ type
  invalid : e.2 = .invalid ↔
    ∃ name type default description, e.1 = .lookup name type default description ∧
      validName name = false

theorem cast_eq_some {v w : ConfigVar τ ν} {type : τ} :
    v.cast type = some w ↔ v.type = type ∧ v = w := by
  rw [ConfigVar.cast]
  split_ifs with h <;> simp [h]

theorem Answered.perform {e : Request τ ν × Reply τ ν} (h : Answered c e)
    (request : Request τ ν) : Answered (c.perform request).1 e where
  given v hv := perform_map (h.given v hv)
  typed := h.typed
  refused name type default description he := by
    obtain ⟨v, hv, hne⟩ := h.refused name type default description he
    exact ⟨v, perform_map hv, hne⟩
  invalid := h.invalid

theorem WellFormed.answered (h : WellFormed c) (request : Request τ ν) :
    Answered (c.perform request).1 (request, (c.perform request).2) := by
  cases request with
  | lookup name type default description =>
      cases hmap : c.map name with
      | some v =>
          have heq : c.perform (.lookup name type default description) =
              (c, .var (v.cast type)) := by
            simp only [Config.perform, hmap]
          rw [heq]
          refine ⟨?_, ?_, ?_, ?_⟩
          · intro w hw
            obtain ⟨-, rfl⟩ := cast_eq_some.mp (Reply.var.inj hw)
            exact hmap
          · intro w t hw ht
            obtain ⟨htype, rfl⟩ := cast_eq_some.mp (Reply.var.inj hw)
            exact htype.trans (Option.some.inj ht)
          · intro n t d text he
            obtain ⟨hrequest, hreply⟩ := Prod.mk.inj he
            obtain ⟨rfl, rfl, -, -⟩ := Request.lookup.inj hrequest
            refine ⟨v, hmap, fun htype => ?_⟩
            have hcast := (cast_eq_some (w := v)).mpr ⟨htype, rfl⟩
            rw [Reply.var.inj hreply] at hcast
            cases hcast
          · refine ⟨(fun he => by cases he), ?_⟩
            rintro ⟨n, t, d, text, he, hinvalid⟩
            obtain ⟨rfl, -⟩ := Request.lookup.inj he
            rw [h.valid _ v hmap] at hinvalid
            cases hinvalid
      | none =>
          cases hvalid : validName name with
          | false =>
              have heq : c.perform (.lookup name type default description) = (c, .invalid) := by
                simp [Config.perform, hmap, hvalid]
              rw [heq]
              refine ⟨(fun v hv => by cases hv), (fun v t hv => by cases hv),
                (fun n t d text he => by cases he), fun _ => ?_, fun _ => rfl⟩
              exact ⟨name, type, default, description, rfl, hvalid⟩
          | true =>
              have heq : c.perform (.lookup name type default description) =
                  ((c.construct name type default description).1,
                    .var (some (c.construct name type default description).2)) := by
                simp only [Config.perform, hmap, hvalid, if_true]
              rw [heq]
              refine ⟨?_, ?_, (fun n t d text he => by cases he), (fun he => by cases he), ?_⟩
              · intro v hv
                obtain rfl := Option.some.inj (Reply.var.inj hv)
                exact (construct_map ..).trans (if_pos rfl)
              · intro v t hv ht
                obtain rfl := Option.some.inj (Reply.var.inj hv)
                exact Option.some.inj ht
              · rintro ⟨n, t, d, text, he, hinvalid⟩
                obtain ⟨rfl, -⟩ := Request.lookup.inj he
                rw [hvalid] at hinvalid
                cases hinvalid
  | find name type =>
      refine ⟨?_, ?_, (fun n t d text he => by cases he), (fun he => by cases he), ?_⟩
      · intro v hv
        obtain ⟨w, hw, hcast⟩ := Option.bind_eq_some_iff.mp (Reply.var.inj hv)
        obtain ⟨-, rfl⟩ := cast_eq_some.mp hcast
        exact hw
      · intro v t hv ht
        obtain ⟨w, hw, hcast⟩ := Option.bind_eq_some_iff.mp (Reply.var.inj hv)
        obtain ⟨htype, rfl⟩ := cast_eq_some.mp hcast
        exact htype.trans (Option.some.inj ht)
      · rintro ⟨n, t, d, text, he, -⟩
        cases he
  | lookupBase name =>
      refine ⟨fun v hv => Reply.var.inj hv, (fun v t hv ht => by cases ht),
        (fun n t d text he => by cases he), (fun he => by cases he), ?_⟩
      rintro ⟨n, t, d, text, he, -⟩
      cases he

/-! ### Any number of threads -/

/-- A thread between the locked parts is about to create a variable with a valid name. -/
def Pending (s : State ι τ ν) : Prop :=
  ∀ thread request, s.creating thread = some request →
    ∃ name type default description, request = .lookup name type default description ∧
      validName name = true

/-- What ends under the read lock is a whole call. -/
theorem perform_of_begin {reply : Reply τ ν} (h : c.begin request = some reply) :
    c.perform request = (c, reply) := by
  cases request with
  | lookup name type default description =>
      simp only [Config.begin] at h
      simp only [Config.perform]
      cases hmap : c.map name with
      | some v =>
          rw [hmap] at h
          rw [← Option.some.inj h]
      | none =>
          rw [hmap] at h
          cases hvalid : validName name with
          | true => simp [hvalid] at h
          | false =>
              obtain rfl : Reply.invalid = reply := by simpa [hvalid] using h
              rfl
  | find name type =>
      simp only [Config.begin] at h
      simp only [Config.perform]
      cases hmap : c.map name with
      | some v =>
          rw [hmap] at h
          rw [← Option.some.inj h]
          rfl
      | none =>
          rw [hmap] at h
          rw [← Option.some.inj h]
          rfl
  | lookupBase name =>
      rw [← Option.some.inj h]
      rfl

omit [DecidableEq ι] in
theorem valid_of_begin (h : c.begin request = none) :
    ∃ name type default description, request = .lookup name type default description ∧
      validName name = true := by
  cases request with
  | lookup name type default description =>
      refine ⟨name, type, default, description, rfl, ?_⟩
      simp only [Config.begin] at h
      cases hmap : c.map name with
      | some v => simp [hmap] at h
      | none => simpa [hmap] using h
  | find name type =>
      simp only [Config.begin] at h
      cases hmap : c.map name with
      | some v => simp [hmap] at h
      | none => simp [hmap] at h
  | lookupBase name => cases h

/-- The second look under the write lock makes the rest of a call a whole one. -/
theorem perform_lookup {name : String} (hvalid : validName name = true) (type : τ) (default : ν)
    (description : String) : c.perform (.lookup name type default description) =
      c.lookupLocked name type default description := by
  rw [Config.lookupLocked]
  cases hmap : c.map name with
  | some v => simp only [Config.perform, hmap]
  | none => simp only [Config.perform, hmap, hvalid, if_true]

/-- A step is explained by the calls that end with it. -/
theorem Pending.step {s s' : State ι τ ν} {a : Action ι τ ν} (h : Pending s)
    (hstep : step s a = some s') :
    Pending s' ∧ Explains Config.perform s.config (ended s a) s'.config := by
  have hexec := exec_of_step hstep
  generalize ended s a = es at hexec ⊢
  cases a with
  | call thread request =>
      simp only [exec] at hexec
      split_ifs at hexec with hidle
      split at hexec
      · next reply hreply =>
          obtain ⟨rfl, rfl⟩ := Prod.mk.inj (Option.some.inj hexec)
          have hperform := perform_of_begin hreply
          exact ⟨h, by rw [hperform], by rw [hperform]; rfl⟩
      · next hreply =>
          obtain ⟨rfl, rfl⟩ := Prod.mk.inj (Option.some.inj hexec)
          refine ⟨?_, rfl⟩
          intro t r hr
          by_cases ht : t = thread
          · subst ht
            obtain rfl := Option.some.inj ((Function.update_self t _ _).symm.trans hr)
            exact valid_of_begin hreply
          · exact h t r ((Function.update_of_ne ht _ _).symm.trans hr)
  | create thread =>
      simp only [exec] at hexec
      split at hexec
      · next name type default description hcreating =>
          obtain ⟨rfl, rfl⟩ := Prod.mk.inj (Option.some.inj hexec)
          obtain ⟨n, t, d, text, hrequest, hvalid⟩ := h thread _ hcreating
          obtain ⟨rfl, -⟩ := Request.lookup.inj hrequest
          have hperform := perform_lookup (c := s.config) hvalid type default description
          refine ⟨?_, ?_, ?_⟩
          · intro t' r hr
            by_cases ht : t' = thread
            · subst ht
              exact absurd ((Function.update_self t' _ _).symm.trans hr) (fun he => by cases he)
            · exact h t' r ((Function.update_of_ne ht _ _).symm.trans hr)
          · rw [hperform]
          · rw [hperform]
            rfl
      · cases hexec

/-- What the calls of a run saw of the registry. -/
structure Registered (h : List (Request τ ν × Reply τ ν)) (c : Config τ ν) : Prop where
  /-- They saw what they would have seen one after another. -/
  explained : Explains Config.perform .init h c
  one : ∀ e ∈ h, ∀ e' ∈ h, ∀ v v', e.2 = .var (some v) → e'.2 = .var (some v') →
    (e.1.name = e'.1.name → v = v') ∧ (v.id = v'.id → e.1.name = e'.1.name)
  named : ∀ e ∈ h, ∀ v, e.2 = .var (some v) → v.name = e.1.name
  answered : ∀ e ∈ h, Answered c e

/-- Whatever the threads do in between, a name has one variable, and every call gets it. -/
theorem lookup_linearizable (as : List (Action ι τ ν)) (s : State ι τ ν)
    (hrun : run step init as = some s) : Registered (collect step ended init as) s.config := by
  have hexplained : Explains Config.perform .init (collect step ended init as) s.config :=
    run_explains Pending State.config
      (fun _ _ _ h hstep => h.step hstep) (fun _ _ h => by cases h) hrun
  have hformed := hexplained.invariant WellFormed (fun _ b h => h.perform b) .init
  have hanswered := hexplained.final WellFormed Answered (fun _ b h => h.perform b)
    (fun _ b h => h.answered b) (fun _ b _ _ h => h.perform b) .init
  refine ⟨hexplained, ?_, ?_, hanswered⟩
  · intro e he e' he' v v' hv hv'
    have hmap := (hanswered e he).given v hv
    have hmap' := (hanswered e' he').given v' hv'
    refine ⟨fun hname => ?_, hformed.unique _ _ v v' hmap hmap'⟩
    rw [hname] at hmap
    exact Option.some.inj (hmap.symm.trans hmap')
  · intro e he v hv
    exact hformed.named _ v ((hanswered e he).given v hv)

/-- Two threads look up a name that is not there, both before either creates the variable; a third
asks for another type. -/
def race : List (Action ℕ ℕ ℕ) :=
  [.call 1 (.lookup "tcp.port" 0 80 "port"), .call 2 (.lookup "tcp.port" 0 8080 "port"),
    .create 2, .create 1, .call 3 (.lookup "tcp.port" 1 0 "port")]

end

theorem lookup_linearizable_race :
    ∃ s, run step init race = some s ∧ Registered (collect step ended init race) s.config ∧
      (collect step ended init race).map Prod.snd =
        [.var (some ⟨0, "tcp.port", "port", 0, 8080⟩), .var (some ⟨0, "tcp.port", "port", 0, 8080⟩),
          .var none] := by
  obtain ⟨s, hs⟩ : ∃ s, run step init race = some s := ⟨_, rfl⟩
  exact ⟨s, hs, lookup_linearizable race s hs, by decide +kernel⟩

end Xzmjx.ConfigLookupModel
