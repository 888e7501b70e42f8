import Mathlib.Data.List.Basic
import Mathlib.Data.List.Induction
import Mathlib.Logic.Function.Basic
import Mathlib.Tactic.Common

/-!
# The command line

`Env::init` takes a command line for a row of options: `-key` and, perhaps, a value that does not
begin with the dash. A key without a value has the empty one. The first argument that does not fit
ends it, and the options before stay.

An argument is its characters in front of the zero.
-/
namespace Xzmjx.EnvModel
open Function

abbrev Arg := List Char

/-- `m_args`. -/
abbrev Args := Arg → Option Arg

/-- `Env::addArg`. -/
def addArg (args : Args) (key val : Arg) : Args := update args key (some val)

/-- `Env::get`. -/
def get (args : Args) (key default : Arg) : Arg := (args key).getD default

/-- `addArg(now_key, "")` if there is a key. -/
def flush (args : Args) (nowKey : Option Arg) : Args :=
  nowKey.elim args fun key => addArg args key []

/-- The loop of `Env::init`. -/
def initLoop (args : Args) (nowKey : Option Arg) : List Arg → Bool × Args
  | [] => (true, flush args nowKey)
  | a :: argv =>
      if a.head? = some '-' then
        if 1 < a.length then initLoop (flush args nowKey) (some a.tail) argv
        else (false, args)
      else
        match nowKey with
        | some key => initLoop (addArg args key a) none argv
        | none => (false, args)

/-- `Env::init`, for what follows the name of the program. -/
def init (args : Args) (argv : List Arg) : Bool × Args := initLoop args none argv

/-! ### Options -/

/-- A key and its value, if it has one. -/
structure Opt where
  key : Arg
  value : Option Arg
  key_ne_nil : key ≠ []
  value_plain : ∀ v ∈ value, v.head? ≠ some '-'

def Opt.args (o : Opt) : List Arg := ('-' :: o.key) :: o.value.toList

/-- The map after a row of options. -/
def stored (args : Args) (opts : List Opt) : Args :=
  opts.foldl (fun args o => addArg args o.key (o.value.getD [])) args

/-- What is an argument that `init` refuses, behind a key that waits for its value or not. -/
def Refused (nowKey : Option Arg) (a : Arg) : Prop :=
  a = ['-'] ∨ (nowKey = none ∧ a.head? ≠ some '-')

/-- Behind a row of options no key waits. -/
def Closed (opts : List Opt) : Prop := ∀ o ∈ opts.getLast?, o.value ≠ none

variable {args : Args} {nowKey : Option Arg} {argv : List Arg}

/-- The arguments that made `nowKey` what it is. -/
def waiting (nowKey : Option Arg) : List Arg := (nowKey.map fun key => '-' :: key).toList

/-- How the loop ends: behind a row of options, or at an argument that does not fit. A key that
waits there is not stored. -/
inductive Ends (args : Args) (argv : List Arg) : Bool × Args → Prop
  | accepted (opts : List Opt) (hargv : argv = opts.flatMap Opt.args) :
      Ends args argv (true, stored args opts)
  | refused (opts : List Opt) (key : Option Arg) (a : Arg) (rest : List Arg)
      (hargv : argv = opts.flatMap Opt.args ++ waiting key ++ a :: rest)
      (hkey : ∀ k ∈ key, k ≠ []) (hclosed : key = none → Closed opts) (ha : Refused key a) :
      Ends args argv (false, stored args opts)

/-- A key has no value if another one follows, or nothing. -/
def Follows (o : Opt) (argv : List Arg) : Prop :=
  o.value = none → argv = [] ∨ ∃ key rest, key ≠ [] ∧ argv = ('-' :: key) :: rest

theorem not_refused_key {key : Arg} (hkey : key ≠ []) : ¬Refused none ('-' :: key) := by
  rintro (hdash | ⟨-, hplain⟩)
  · exact hkey (List.cons.inj hdash).2
  · exact hplain rfl

/-- An option in front of what the loop goes on with. -/
theorem Ends.cons (o : Opt) {r : Bool × Args} (ho : Follows o argv)
    (h : Ends (addArg args o.key (o.value.getD [])) argv r) : Ends args (o.args ++ argv) r := by
  cases h with
  | accepted opts hargv => exact .accepted (o :: opts) (by rw [hargv, List.flatMap_cons])
  | refused opts key a rest hargv hkey hclosed ha =>
      refine .refused (o :: opts) key a rest ?_ hkey ?_ ha
      · rw [hargv, List.flatMap_cons, List.append_assoc, List.append_assoc, List.append_assoc]
      · rintro rfl o' ho' hnone
        cases opts with
        | cons o₁ opts =>
            rw [List.getLast?_cons_cons] at ho'
            exact hclosed rfl o' ho' hnone
        | nil =>
            obtain rfl := Option.some.inj ho'
            obtain hnil | ⟨key, rest', hne, hnext⟩ := ho hnone
            · rw [hnil] at hargv
              cases hargv
            · obtain ⟨rfl, -⟩ := List.cons.inj (hnext.symm.trans hargv)
              exact not_refused_key hne ha

/-! ### One argument -/

section
variable {a key : Arg}

theorem initLoop_key (hkey : key ≠ []) :
    initLoop args nowKey (('-' :: key) :: argv) = initLoop (flush args nowKey) (some key) argv := by
  have hlong : 1 < ('-' :: key).length := by
    rw [List.length_cons]
    exact Nat.succ_lt_succ (List.length_pos_of_ne_nil hkey)
  cases nowKey <;> simp only [initLoop, List.head?_cons, if_true, if_pos hlong, List.tail_cons]

theorem initLoop_value (ha : a.head? ≠ some '-') :
    initLoop args (some key) (a :: argv) = initLoop (addArg args key a) none argv := by
  rw [initLoop, if_neg ha]

theorem initLoop_refused (ha : Refused nowKey a) :
    initLoop args nowKey (a :: argv) = (false, args) := by
  obtain rfl | ⟨rfl, hplain⟩ := ha
  · cases nowKey <;> rfl
  · rw [initLoop, if_neg hplain]

end

/-! ### The whole line -/

theorem ends_initLoop (argv : List Arg) (args : Args) (nowKey : Option Arg)
    (hkey : ∀ key ∈ nowKey, key ≠ []) :
    Ends args (waiting nowKey ++ argv) (initLoop args nowKey argv) := by
  induction argv generalizing args nowKey with
  | nil =>
      cases nowKey with
      | none => exact .accepted [] rfl
      | some key =>
          exact Ends.cons ⟨key, none, hkey key rfl, fun v hv => by cases hv⟩ (fun _ => .inl rfl)
            (.accepted [] rfl)
  | cons a argv ih =>
      have hclosed : nowKey = none → Closed [] := fun _ o ho => by cases ho
      by_cases hdash : a.head? = some '-'
      · obtain ⟨key, rfl⟩ := List.head?_eq_some_iff.mp hdash
        by_cases hnil : key = []
        · have ha : Refused nowKey ('-' :: key) := .inl (by rw [hnil])
          rw [initLoop_refused ha]
          exact .refused [] nowKey _ argv rfl hkey hclosed ha
        · have hnext := ih (flush args nowKey) (some key) fun k hk => Option.some.inj hk ▸ hnil
          rw [initLoop_key hnil]
          cases nowKey with
          | none => exact hnext
          | some k =>
              exact Ends.cons ⟨k, none, hkey k rfl, fun v hv => by cases hv⟩
                (fun _ => .inr ⟨key, argv, hnil, rfl⟩) hnext
      · cases nowKey with
        | none =>
            have ha : Refused none a := .inr ⟨rfl, hdash⟩
            rw [initLoop_refused ha]
            exact .refused [] none a argv rfl hkey hclosed ha
        | some k =>
            rw [initLoop_value hdash]
            refine Ends.cons ⟨k, some a, hkey k rfl, fun v hv => Option.some.inj hv ▸ hdash⟩
              (fun hv => by cases hv) ?_
            exact ih (addArg args k a) none fun k hk => by cases hk

/-- The loop goes through a row of options; the last key may still wait for its value. -/
theorem initLoop_args (opts : List Opt) (args : Args) (nowKey : Option Arg) (rest : List Arg) :
    ∃ args' nowKey', initLoop args nowKey (opts.flatMap Opt.args ++ rest) =
        initLoop args' nowKey' rest ∧ flush args' nowKey' = stored (flush args nowKey) opts ∧
      ((opts = [] → nowKey = none) → Closed opts → nowKey' = none) := by
  induction opts generalizing args nowKey with
  | nil => exact ⟨args, nowKey, rfl, rfl, fun hnone _ => hnone rfl⟩
  | cons o opts ih =>
      have hhead : initLoop args nowKey ((o :: opts).flatMap Opt.args ++ rest) =
          initLoop (flush args nowKey) (some o.key)
            (o.value.toList ++ (opts.flatMap Opt.args ++ rest)) := by
        rw [List.flatMap_cons, Opt.args, List.append_assoc, List.cons_append]
        exact initLoop_key o.key_ne_nil
      have hrest : Closed (o :: opts) → Closed opts := by
        intro hclosed o' ho'
        cases opts with
        | nil => cases ho'
        | cons o₁ opts => exact hclosed o' (by rwa [List.getLast?_cons_cons])
      rw [hhead]
      cases hv : o.value with
      | none =>
          obtain ⟨args', nowKey', hloop, hstored, hnone⟩ := ih (flush args nowKey) (some o.key)
          refine ⟨args', nowKey', hloop, hstored.trans ?_, fun _ hclosed =>
            hnone (fun hnil => ?_) (hrest hclosed)⟩
          · rw [stored, stored, List.foldl_cons, hv]
            rfl
          · subst hnil
            exact absurd hv (hclosed o rfl)
      | some v =>
          obtain ⟨args', nowKey', hloop, hstored, hnone⟩ :=
            ih (addArg (flush args nowKey) o.key v) none
          refine ⟨args', nowKey', ?_, hstored.trans ?_, fun _ hclosed =>
            hnone (fun _ => rfl) (hrest hclosed)⟩
          · rw [Option.toList_some, List.singleton_append, initLoop_value (o.value_plain v hv)]
            exact hloop
          · rw [stored, stored, List.foldl_cons, hv]
            rfl

theorem Ends.init_eq {r : Bool × Args} (h : Ends args argv r) : init args argv = r := by
  cases h with
  | accepted opts hargv =>
      obtain ⟨args', nowKey', hloop, hstored, -⟩ := initLoop_args opts args none []
      rw [List.append_nil, ← hargv] at hloop
      rw [init, hloop, initLoop, hstored]
      rfl
  | refused opts key a rest hargv hkey hclosed ha =>
      obtain ⟨args', nowKey', hloop, hstored, hnone⟩ :=
        initLoop_args opts args none (waiting key ++ a :: rest)
      rw [← List.append_assoc, ← hargv] at hloop
      rw [init, hloop]
      cases key with
      | none =>
          obtain rfl := hnone (fun _ => rfl) (hclosed rfl)
          have hargs : args' = stored args opts := hstored
          rw [hargs]
          exact initLoop_refused ha
      | some k =>
          have hgo : initLoop args' nowKey' (waiting (some k) ++ a :: rest) =
              initLoop (flush args' nowKey') (some k) (a :: rest) := initLoop_key (hkey k rfl)
          rw [hgo, hstored, initLoop_refused ha]
          rfl

/-- The last word on a key counts. -/
theorem get_stored (args : Args) (opts : List Opt) (key default : Arg) :
    get (stored args opts) key default =
      ((opts.filter fun o => o.key = key).getLast?).elim (get args key default)
        fun o => o.value.getD [] := by
  induction opts using List.reverseRecOn with
  | nil => rfl
  | append_singleton opts o ih =>
      have hlast : stored args (opts ++ [o]) =
          addArg (stored args opts) o.key (o.value.getD []) := by
        rw [stored, List.foldl_append]
        rfl
      rw [hlast, List.filter_append]
      by_cases hkey : o.key = key
      · subst hkey
        simp [get, addArg]
      · have hget : get (addArg (stored args opts) o.key (o.value.getD [])) key default =
            get (stored args opts) key default := by
          rw [get, addArg, update_of_ne (Ne.symm hkey), get]
        rw [hget, ih]
        simp [hkey]

/-- Every command line: `init` accepts exactly the rows of options, and else stops at the first
argument that does not fit; what `get` finds afterwards is the last word on a key among the
options in front of that. -/
theorem init_iff (args : Args) (argv : List Arg) :
    (∀ r, init args argv = r ↔ Ends args argv r) ∧
      ∀ opts key default, get (stored args opts) key default =
        ((opts.filter fun o => o.key = key).getLast?).elim (get args key default)
          fun o => o.value.getD [] := by
  refine ⟨fun r => ⟨?_, Ends.init_eq⟩, get_stored args⟩
  rintro rfl
  exact ends_initLoop argv args none fun key hkey => by cases hkey

end Xzmjx.EnvModel
