import Xzmjx.StepSystem
import Xzmjx.StreamReads

/-!
# The table of descriptor contexts

`get` looks a descriptor up under the read lock, and when it is to create a context it
drops that lock, takes the write lock and creates one without looking again. The two locked
parts are the steps of a run; any number of threads take them in any order. A context is its
number in the order of creation.
-/
namespace Xzmjx.FdManagerModel
open StreamModel StepSystem

/-- What callers see, in order: a `get` with what it returns, or a `del`. -/
inductive Event
  | got (fd : ℤ) (autoCreate : Bool) (ctx : Option ℕ)
  | deleted (fd : ℤ)
  deriving DecidableEq, Repr

structure State where
  container : List (Option ℕ)
  next : ℕ
  creating : ℕ → Option ℤ
  log : List Event

inductive Action
  | lookup (thread : ℕ) (fd : ℤ) (autoCreate : Bool)
  | create (thread : ℕ)
  | del (fd : ℤ)
  deriving DecidableEq, Repr

/-- `FdManager::FdManager`. -/
def init : State := ⟨List.replicate 64 none, 0, fun _ => none, []⟩

/-- `std::vector::resize`. -/
def resize (size : ℕ) (container : List (Option ℕ)) : List (Option ℕ) :=
  container.take size ++ List.replicate (size - container.length) none

namespace State

/-- `m_container[fd]`. -/
def slot (s : State) (fd : ℤ) : Option ℕ := (s.container[fd.toNat]?).join

def record (s : State) (e : Event) : State := { s with log := s.log ++ [e] }

def await (s : State) (thread : ℕ) (fd : ℤ) : State :=
  { s with creating := Function.update s.creating thread (some fd) }

/-- The table with a place for `fd`. -/
def grown (s : State) (fd : ℤ) : List (Option ℕ) :=
  if toInt s.container.length ≤ fd then resize (fd * 3 / 2).toNat s.container else s.container

/-- The part of `get` under the read lock. -/
def lookup (s : State) (thread : ℕ) (fd : ℤ) (autoCreate : Bool) : State :=
  if fd < 0 then s.record (.got fd autoCreate none)
  else if toInt s.container.length ≤ fd then
    if autoCreate = false then s.record (.got fd autoCreate none) else s.await thread fd
  else if s.slot fd ≠ none ∨ autoCreate = false then s.record (.got fd autoCreate (s.slot fd))
  else s.await thread fd

/-- The part of `get` under the write lock. -/
def create (s : State) (thread : ℕ) (fd : ℤ) : State where
  container := (s.grown fd).set fd.toNat (some s.next)
  next := s.next + 1
  creating := Function.update s.creating thread none
  log := s.log ++ [.got fd true (some s.next)]

def del (s : State) (fd : ℤ) : State :=
  if toInt s.container.length ≤ fd then s.record (.deleted fd)
  else { s with container := s.container.set fd.toNat none }.record (.deleted fd)

end State

/-- One locked part of `get`, or `del`; `none` where the thread is not at that point, and where
`del` would read in front of the table. -/
def step (s : State) : Action → Option State
  | .lookup thread fd autoCreate =>
      if s.creating thread = none then some (s.lookup thread fd autoCreate) else none
  | .create thread => (s.creating thread).map fun fd => s.create thread fd
  | .del fd => if fd < 0 then none else some (s.del fd)

/-- The table is not resized to a length that is no `int`. -/
def Fits (s : State) : Action → Prop
  | .create thread =>
      ∀ fd ∈ s.creating thread, toInt s.container.length ≤ fd → fd * 3 / 2 < 2 ^ 31
  | _ => True

/-- A thread that creates a context finds that there is still none. -/
def FindsEmpty (s : State) : Action → Prop
  | .create thread => ∀ fd ∈ s.creating thread, s.slot fd = none
  | _ => True

instance : ∀ s a, Decidable (Fits s a)
  | s, .create thread => inferInstanceAs <| Decidable <|
      ∀ fd ∈ s.creating thread, toInt s.container.length ≤ fd → fd * 3 / 2 < 2 ^ 31
  | _, .lookup _ _ _ => isTrue trivial
  | _, .del _ => isTrue trivial

instance : ∀ s a, Decidable (FindsEmpty s a)
  | s, .create thread => inferInstanceAs (Decidable (∀ fd ∈ s.creating thread, s.slot fd = none))
  | _, .lookup _ _ _ => isTrue trivial
  | _, .del _ => isTrue trivial

/-! ### One context per descriptor -/

/-- `get(fd, true)` has returned `ctx`, and `fd` has not been deleted since. -/
def Returned (log : List Event) (fd : ℤ) (ctx : Option ℕ) : Prop :=
  ∃ before after, log = before ++ .got fd true ctx :: after ∧ .deleted fd ∉ after

/-- Whatever `get` returns for a descriptor is what `get(fd, true)` has returned before. -/
def OneContext (log : List Event) : Prop :=
  ∀ before after fd autoCreate ctx, 0 ≤ fd → log = before ++ .got fd autoCreate ctx :: after →
    ∀ ctx', Returned before fd ctx' → ctx = ctx'

theorem not_returned_nil {fd : ℤ} {ctx : Option ℕ} : ¬Returned [] fd ctx := by
  rintro ⟨before, after, h, -⟩
  simp at h

/-- Where an entry of a list with one more at its end is. -/
theorem concat_eq_append_cons {α : Type} {l before after : List α} {e x : α} :
    l ++ [e] = before ++ x :: after ↔
      (after = [] ∧ l = before ∧ e = x) ∨
        ∃ rest, after = rest ++ [e] ∧ l = before ++ x :: rest := by
  constructor
  · intro h
    rcases List.eq_nil_or_concat' after with rfl | ⟨rest, last, rfl⟩
    · obtain ⟨hl, he⟩ := List.append_singleton_inj.mp h
      exact Or.inl ⟨rfl, hl, he⟩
    · rw [← List.cons_append, ← List.append_assoc] at h
      obtain ⟨hl, rfl⟩ := List.append_singleton_inj.mp h
      exact Or.inr ⟨rest, rfl, hl⟩
  · rintro (⟨rfl, rfl, rfl⟩ | ⟨rest, rfl, rfl⟩)
    · rfl
    · simp

theorem returned_append_singleton {log : List Event} {e : Event} {fd : ℤ} {ctx : Option ℕ} :
    Returned (log ++ [e]) fd ctx ↔
      (Returned log fd ctx ∧ e ≠ .deleted fd) ∨ e = .got fd true ctx := by
  constructor
  · rintro ⟨before, after, h, hkept⟩
    rcases concat_eq_append_cons.mp h with ⟨-, -, he⟩ | ⟨rest, rfl, hlog⟩
    · exact Or.inr he
    · rw [List.mem_append, not_or, List.mem_singleton] at hkept
      exact Or.inl ⟨⟨before, rest, hlog, hkept.1⟩, fun he => hkept.2 he.symm⟩
  · rintro (⟨⟨before, after, rfl, hkept⟩, he⟩ | rfl)
    · refine ⟨before, after ++ [e], by simp, ?_⟩
      rw [List.mem_append, not_or, List.mem_singleton]
      exact ⟨hkept, fun h => he h.symm⟩
    · exact ⟨log, [], rfl, by simp⟩

theorem oneContext_append_singleton {log : List Event} {e : Event} :
    OneContext (log ++ [e]) ↔ OneContext log ∧
      ∀ fd autoCreate ctx, 0 ≤ fd → e = .got fd autoCreate ctx →
        ∀ ctx', Returned log fd ctx' → ctx = ctx' := by
  constructor
  · intro h
    constructor
    · intro before after fd autoCreate ctx hfd hlog
      exact h before (after ++ [e]) fd autoCreate ctx hfd (by rw [hlog]; simp)
    · intro fd autoCreate ctx hfd he
      exact h log [] fd autoCreate ctx hfd (by rw [he])
  · rintro ⟨hlog, hlast⟩ before after fd autoCreate ctx hfd h
    rcases concat_eq_append_cons.mp h with ⟨-, rfl, he⟩ | ⟨rest, -, hrest⟩
    · exact hlast fd autoCreate ctx hfd he
    · exact hlog before rest fd autoCreate ctx hfd hrest

theorem OneContext.of_append {log rest : List Event} (h : OneContext (log ++ rest)) :
    OneContext log := by
  intro before after fd autoCreate ctx hfd hlog
  exact h before (after ++ rest) fd autoCreate ctx hfd (by rw [hlog]; simp)

/-! ### Tables -/

/-- What holds as long as the table has not become too large. -/
structure Sound (s : State) : Prop where
  large : 64 ≤ s.container.length
  small : s.container.length < 2 ^ 31
  creating_nonneg : ∀ thread fd, s.creating thread = some fd → 0 ≤ fd
  returned : ∀ fd ctx, 0 ≤ fd → s.slot fd = some ctx → Returned s.log fd (some ctx)
  fresh : ∀ fd ctx, 0 ≤ fd → s.slot fd = some ctx → ctx < s.next

theorem sound_init : Sound init := by
  have hslot : ∀ fd, init.slot fd = none := by
    intro fd
    unfold State.slot init
    rw [List.getElem?_replicate]
    split_ifs <;> rfl
  refine ⟨le_rfl, by decide, by simp [init], ?_, ?_⟩
  · intro fd ctx _ h
    rw [hslot] at h
    cases h
  · intro fd ctx _ h
    rw [hslot] at h
    cases h

variable {s s' t : State} {a : Action} {as : List Action} {thread : ℕ} {fd : ℤ}
  {autoCreate : Bool}

theorem slot_eq_none (hfd : (s.container.length : ℤ) ≤ fd) : s.slot fd = none := by
  have hlen : s.container.length ≤ fd.toNat := by omega
  rw [State.slot, List.getElem?_eq_none hlen]
  rfl

theorem Sound.toInt_length (hs : Sound s) : toInt s.container.length = s.container.length :=
  toInt_of_lt hs.small

/-- Growing leaves what is in the table, and makes room. -/
theorem grown_spec (hs : Sound s) (hfd : 0 ≤ fd)
    (hfits : toInt s.container.length ≤ fd → fd * 3 / 2 < 2 ^ 31) :
    s.container.length ≤ (s.grown fd).length ∧ (s.grown fd).length < 2 ^ 31 ∧
      fd.toNat < (s.grown fd).length ∧
      ∀ i : ℕ, ((s.grown fd)[i]?).join = (s.container[i]?).join := by
  have hlarge := hs.large
  unfold State.grown
  rw [hs.toInt_length] at hfits ⊢
  split_ifs with hgrow
  · have hsize : s.container.length ≤ (fd * 3 / 2).toNat := by omega
    have hresize : resize (fd * 3 / 2).toNat s.container =
        s.container ++ List.replicate ((fd * 3 / 2).toNat - s.container.length) none := by
      rw [resize, List.take_of_length_le hsize]
    have hfit := hfits hgrow
    rw [hresize, List.length_append, List.length_replicate]
    refine ⟨by omega, by omega, by omega, fun i => ?_⟩
    rw [List.getElem?_append]
    split_ifs with hi
    · rfl
    · rw [List.getElem?_eq_none (by omega : s.container.length ≤ i), List.getElem?_replicate]
      split_ifs <;> rfl
  · exact ⟨le_rfl, hs.small, by omega, fun _ => rfl⟩

theorem slot_create (hs : Sound s) (hfd : 0 ≤ fd)
    (hfits : toInt s.container.length ≤ fd → fd * 3 / 2 < 2 ^ 31) {fd' : ℤ} (hfd' : 0 ≤ fd') :
    (s.create thread fd).slot fd' = if fd' = fd then some s.next else s.slot fd' := by
  obtain ⟨-, -, hroom, hsame⟩ := grown_spec hs hfd hfits
  show (((s.grown fd).set fd.toNat (some s.next))[fd'.toNat]?).join = _
  rw [List.getElem?_set]
  split_ifs with hi heq heq
  · rfl
  · omega
  · omega
  · exact hsame fd'.toNat

theorem slot_del (hs : Sound s) (hfd : 0 ≤ fd) {fd' : ℤ} (hfd' : 0 ≤ fd') :
    (s.del fd).slot fd' = if fd' = fd then none else s.slot fd' := by
  unfold State.del
  rw [hs.toInt_length]
  by_cases hout : (s.container.length : ℤ) ≤ fd
  · rw [if_pos hout]
    split_ifs with heq
    · rw [heq]
      exact slot_eq_none hout
    · rfl
  · rw [if_neg hout]
    show ((s.container.set fd.toNat none)[fd'.toNat]?).join = _
    rw [List.getElem?_set]
    split_ifs with hi hlen heq heq heq
    · rfl
    · omega
    · rfl
    · omega
    · omega
    · rfl

theorem log_del (s : State) (fd : ℤ) : (s.del fd).log = s.log ++ [.deleted fd] := by
  unfold State.del
  split_ifs <;> rfl

/-- In a sound table `get` returns what it finds, or waits for the write lock. -/
theorem lookup_cases (hs : Sound s) (thread : ℕ) (fd : ℤ) (autoCreate : Bool) :
    (fd < 0 ∧ s.lookup thread fd autoCreate = s.record (.got fd autoCreate none)) ∨
    (0 ≤ fd ∧ (autoCreate = true → s.slot fd ≠ none) ∧
      s.lookup thread fd autoCreate = s.record (.got fd autoCreate (s.slot fd))) ∨
    (0 ≤ fd ∧ s.lookup thread fd autoCreate = s.await thread fd) := by
  unfold State.lookup
  rw [hs.toInt_length]
  split_ifs with hneg hout hauto hfound
  · exact Or.inl ⟨hneg, rfl⟩
  · rw [slot_eq_none hout]
    exact Or.inr (Or.inl ⟨by omega, by simp [hauto], rfl⟩)
  · exact Or.inr (Or.inr ⟨by omega, rfl⟩)
  · refine Or.inr (Or.inl ⟨by omega, fun htrue => ?_, rfl⟩)
    exact hfound.resolve_right (by simp [htrue])
  · exact Or.inr (Or.inr ⟨by omega, rfl⟩)

/-- What a step may do to a sound table: nothing but return or wait, create, or delete. -/
theorem step_cases (hs : Sound s) (h : step s a = some s') :
    (∃ fd autoCreate, fd < 0 ∧ s' = s.record (.got fd autoCreate none)) ∨
    (∃ fd autoCreate, 0 ≤ fd ∧ (autoCreate = true → s.slot fd ≠ none) ∧
      s' = s.record (.got fd autoCreate (s.slot fd))) ∨
    (∃ thread fd, 0 ≤ fd ∧ s' = s.await thread fd) ∨
    (∃ thread fd, a = .create thread ∧ s.creating thread = some fd ∧ s' = s.create thread fd) ∨
    (∃ fd, 0 ≤ fd ∧ s' = s.del fd) := by
  cases a with
  | lookup thread fd autoCreate =>
      simp only [step] at h
      split_ifs at h
      obtain rfl := Option.some.inj h
      rcases lookup_cases hs thread fd autoCreate with ⟨hneg, heq⟩ | ⟨hfd, hslot, heq⟩ | ⟨hfd, heq⟩
      · exact Or.inl ⟨fd, autoCreate, hneg, heq⟩
      · exact Or.inr (Or.inl ⟨fd, autoCreate, hfd, hslot, heq⟩)
      · exact Or.inr (Or.inr (Or.inl ⟨thread, fd, hfd, heq⟩))
  | create thread =>
      obtain ⟨fd, hfd, rfl⟩ := Option.map_eq_some_iff.mp h
      exact Or.inr (Or.inr (Or.inr (Or.inl ⟨thread, fd, rfl, hfd, rfl⟩)))
  | del fd =>
      simp only [step] at h
      split_ifs at h with hneg
      obtain rfl := Option.some.inj h
      exact Or.inr (Or.inr (Or.inr (Or.inr ⟨fd, by omega, rfl⟩)))

theorem log_step (hs : Sound s) (h : step s a = some s') : ∃ rest, s'.log = s.log ++ rest := by
  rcases step_cases hs h with ⟨fd, autoCreate, -, rfl⟩ | ⟨fd, autoCreate, -, -, rfl⟩ |
    ⟨thread, fd, -, rfl⟩ | ⟨thread, fd, -, -, rfl⟩ | ⟨fd, -, rfl⟩
  · exact ⟨_, rfl⟩
  · exact ⟨_, rfl⟩
  · exact ⟨[], (List.append_nil _).symm⟩
  · exact ⟨_, rfl⟩
  · exact ⟨_, log_del s fd⟩

/-! ### Sound tables stay sound -/

theorem Sound.record (hs : Sound s) (fd : ℤ) (autoCreate : Bool) (ctx : Option ℕ) :
    Sound (s.record (.got fd autoCreate ctx)) where
  large := hs.large
  small := hs.small
  creating_nonneg := hs.creating_nonneg
  returned fd' ctx' hfd' h :=
    returned_append_singleton.mpr (Or.inl ⟨hs.returned fd' ctx' hfd' h, by simp⟩)
  fresh := hs.fresh

theorem Sound.await (hs : Sound s) (thread : ℕ) (hfd : 0 ≤ fd) : Sound (s.await thread fd) where
  large := hs.large
  small := hs.small
  creating_nonneg thread' fd' h := by
    by_cases hthread : thread' = thread
    · subst hthread
      simp only [State.await, Function.update_self, Option.some.injEq] at h
      omega
    · simp only [State.await, Function.update_of_ne hthread] at h
      exact hs.creating_nonneg thread' fd' h
  returned := hs.returned
  fresh := hs.fresh

theorem Sound.create (hs : Sound s) (thread : ℕ) (hfd : 0 ≤ fd)
    (hfits : toInt s.container.length ≤ fd → fd * 3 / 2 < 2 ^ 31) :
    Sound (s.create thread fd) := by
  obtain ⟨hlarge, hsmall, -, -⟩ := grown_spec hs hfd hfits
  constructor
  · rw [State.create, List.length_set]
    exact hs.large.trans hlarge
  · rw [State.create, List.length_set]
    exact hsmall
  · intro thread' fd' h
    by_cases hthread : thread' = thread
    · subst hthread
      simp [State.create] at h
    · simp only [State.create, Function.update_of_ne hthread] at h
      exact hs.creating_nonneg thread' fd' h
  · intro fd' ctx hfd' h
    rw [slot_create hs hfd hfits hfd'] at h
    apply returned_append_singleton.mpr
    split_ifs at h with heq
    · rw [heq, ← h]
      exact Or.inr rfl
    · exact Or.inl ⟨hs.returned fd' ctx hfd' h, by simp⟩
  · intro fd' ctx hfd' h
    rw [slot_create hs hfd hfits hfd'] at h
    show ctx < s.next + 1
    split_ifs at h
    · obtain rfl := Option.some.inj h
      exact Nat.lt_succ_self _
    · exact (hs.fresh fd' ctx hfd' h).trans (Nat.lt_succ_self _)

theorem Sound.del (hs : Sound s) (hfd : 0 ≤ fd) : Sound (s.del fd) := by
  have hlength : (s.del fd).container.length = s.container.length := by
    unfold State.del
    split_ifs
    · rfl
    · exact List.length_set
  have hrest : (s.del fd).next = s.next ∧ (s.del fd).creating = s.creating := by
    unfold State.del
    split_ifs <;> exact ⟨rfl, rfl⟩
  constructor
  · rw [hlength]
    exact hs.large
  · rw [hlength]
    exact hs.small
  · rw [hrest.2]
    exact hs.creating_nonneg
  · intro fd' ctx hfd' h
    rw [slot_del hs hfd hfd'] at h
    split_ifs at h with heq
    rw [log_del, returned_append_singleton]
    exact Or.inl ⟨hs.returned fd' ctx hfd' h, by simpa using fun h => heq h.symm⟩
  · intro fd' ctx hfd' h
    rw [slot_del hs hfd hfd'] at h
    split_ifs at h
    rw [hrest.1]
    exact hs.fresh fd' ctx hfd' h

theorem sound_step (hs : Sound s) (hfits : Fits s a) (h : step s a = some s') : Sound s' := by
  rcases step_cases hs h with ⟨fd, autoCreate, -, rfl⟩ | ⟨fd, autoCreate, -, -, rfl⟩ |
    ⟨thread, fd, hfd, rfl⟩ | ⟨thread, fd, rfl, hcreating, rfl⟩ | ⟨fd, hfd, rfl⟩
  · exact hs.record fd autoCreate none
  · exact hs.record fd autoCreate (s.slot fd)
  · exact hs.await thread hfd
  · exact hs.create thread (hs.creating_nonneg thread fd hcreating) (hfits fd hcreating)
  · exact hs.del hfd

/-! ### One context as long as creations find none -/

/-- The table holds what `get(fd, true)` has returned. -/
structure Agrees (s : State) : Prop where
  held : ∀ fd ctx, 0 ≤ fd → Returned s.log fd ctx → ctx ≠ none ∧ s.slot fd = ctx
  one : OneContext s.log

theorem agrees_init : Agrees init :=
  ⟨fun _ _ _ h => (not_returned_nil h).elim, fun _ _ _ _ _ _ h => by simp [init] at h⟩

/-- A `get` that returns what callers hold, and with creation what is in the table. -/
theorem Agrees.record (hag : Agrees s) {ctx : Option ℕ}
    (hheld : 0 ≤ fd → ∀ ctx', Returned s.log fd ctx' → ctx = ctx')
    (hfound : 0 ≤ fd → autoCreate = true → ctx ≠ none ∧ s.slot fd = ctx) :
    Agrees (s.record (.got fd autoCreate ctx)) := by
  constructor
  · intro fd' ctx' hfd' hret
    rcases returned_append_singleton.mp hret with ⟨hold, -⟩ | heq
    · exact hag.held fd' ctx' hfd' hold
    · obtain ⟨rfl, hauto, rfl⟩ := Event.got.inj heq
      exact hfound hfd' hauto
  · refine oneContext_append_singleton.mpr ⟨hag.one, fun fd' _ _ hfd' heq => ?_⟩
    obtain ⟨rfl, -, rfl⟩ := Event.got.inj heq
    exact hheld hfd'

theorem agrees_create (hs : Sound s) (hag : Agrees s) (hfd : 0 ≤ fd)
    (hfits : toInt s.container.length ≤ fd → fd * 3 / 2 < 2 ^ 31) (hempty : s.slot fd = none) :
    Agrees (s.create thread fd) := by
  have hnew : ∀ ctx, ¬Returned s.log fd ctx := by
    intro ctx h
    obtain ⟨hne, hslot⟩ := hag.held fd ctx hfd h
    exact hne (hslot.symm.trans hempty)
  constructor
  · intro fd' ctx hfd' h
    rw [slot_create hs hfd hfits hfd']
    rcases returned_append_singleton.mp h with ⟨hold, -⟩ | heq
    · have hne : fd' ≠ fd := by
        rintro rfl
        exact hnew ctx hold
      rw [if_neg hne]
      exact hag.held fd' ctx hfd' hold
    · obtain ⟨rfl, -, rfl⟩ := Event.got.inj heq
      rw [if_pos rfl]
      exact ⟨by simp, rfl⟩
  · refine oneContext_append_singleton.mpr ⟨hag.one, fun fd' _ _ _ heq ctx' hold => ?_⟩
    obtain ⟨rfl, -, -⟩ := Event.got.inj heq
    exact (hnew ctx' hold).elim

theorem agrees_del (hs : Sound s) (hag : Agrees s) (hfd : 0 ≤ fd) : Agrees (s.del fd) := by
  constructor
  · intro fd' ctx hfd' hret
    rw [log_del] at hret
    rw [slot_del hs hfd hfd']
    rcases returned_append_singleton.mp hret with ⟨hold, hne⟩ | heq
    · have hother : fd' ≠ fd := by
        rintro rfl
        exact hne rfl
      rw [if_neg hother]
      exact hag.held fd' ctx hfd' hold
    · cases heq
  · rw [log_del]
    exact oneContext_append_singleton.mpr ⟨hag.one, fun _ _ _ _ heq => by cases heq⟩

theorem agrees_step (hs : Sound s) (hag : Agrees s) (hfits : Fits s a) (hempty : FindsEmpty s a)
    (h : step s a = some s') : Agrees s' := by
  rcases step_cases hs h with ⟨fd, autoCreate, hneg, rfl⟩ | ⟨fd, autoCreate, hfd, hfound, rfl⟩ |
    ⟨thread, fd, hfd, rfl⟩ | ⟨thread, fd, rfl, hcreating, rfl⟩ | ⟨fd, hfd, rfl⟩
  · exact hag.record (fun hfd => absurd hfd (not_le.mpr hneg))
      fun hfd => absurd hfd (not_le.mpr hneg)
  · exact hag.record (fun _ ctx' hold => (hag.held fd ctx' hfd hold).2)
      fun _ hauto => ⟨hfound hauto, rfl⟩
  · exact ⟨hag.held, hag.one⟩
  · exact agrees_create hs hag (hs.creating_nonneg thread fd hcreating) (hfits fd hcreating)
      (hempty fd hcreating)
  · exact agrees_del hs hag hfd

/-! ### Runs -/

/-- A creation that finds a context returns another one than has been returned before. -/
theorem findsEmpty_of_oneContext (hs : Sound s) (h : step s a = some s')
    (hone : OneContext s'.log) : FindsEmpty s a := by
  cases a with
  | lookup _ _ _ => trivial
  | del _ => trivial
  | create thread =>
      intro fd hcreating
      obtain ⟨fd', hfd', rfl⟩ := Option.map_eq_some_iff.mp h
      obtain rfl : fd = fd' := Option.some.inj (hcreating.symm.trans hfd')
      have hfd := hs.creating_nonneg thread fd hcreating
      rcases hslot : s.slot fd with _ | ctx
      · rfl
      · have hret := hs.returned fd ctx hfd hslot
        have heq := (oneContext_append_singleton.mp hone).2 fd true _ hfd rfl _ hret
        have hlt := hs.fresh fd ctx hfd hslot
        obtain rfl := Option.some.inj heq
        exact absurd hlt (Nat.lt_irrefl _)

theorem log_run (hs : Sound s) (hfits : AllSteps step Fits s as) (hrun : run step s as = some t) :
    ∃ rest, t.log = s.log ++ rest := by
  induction as generalizing s with
  | nil =>
      obtain rfl := Option.some.inj hrun
      exact ⟨[], (List.append_nil _).symm⟩
  | cons a as ih =>
      obtain ⟨s', hs', hrest⟩ := run_cons.mp hrun
      obtain ⟨l, hl⟩ := log_step hs hs'
      obtain ⟨l', hl'⟩ := ih (sound_step hs hfits.1 hs') (hfits.2 s' hs') hrest
      exact ⟨l ++ l', by rw [hl', hl, List.append_assoc]⟩

theorem allSteps_findsEmpty (hs : Sound s) (hfits : AllSteps step Fits s as)
    (hrun : run step s as = some t) (hone : OneContext t.log) : AllSteps step FindsEmpty s as := by
  induction as generalizing s with
  | nil => trivial
  | cons a as ih =>
      obtain ⟨s', hs', hrest⟩ := run_cons.mp hrun
      have hsound := sound_step hs hfits.1 hs'
      obtain ⟨l, hl⟩ := log_run hsound (hfits.2 s' hs') hrest
      rw [allSteps_cons hs']
      refine ⟨findsEmpty_of_oneContext hs hs' ?_, ih hsound (hfits.2 s' hs') hrest⟩
      exact OneContext.of_append (hl ▸ hone)

/-- While the table fits, all callers get one context for a descriptor exactly when no thread
finds a context where it is about to create one. -/
theorem oneContext_run (hrun : run step init as = some t) :
    (AllSteps step (fun s a => Fits s a ∧ FindsEmpty s a) init as → OneContext t.log) ∧
      (AllSteps step Fits init as → OneContext t.log → AllSteps step FindsEmpty init as) := by
  constructor
  · intro hall
    have hinv : ∀ s a s', (Sound s ∧ Agrees s) → (Fits s a ∧ FindsEmpty s a) →
        step s a = some s' → Sound s' ∧ Agrees s' :=
      fun s a s' hs hG hstep =>
        ⟨sound_step hs.1 hG.1 hstep, agrees_step hs.1 hs.2 hG.1 hG.2 hstep⟩
    exact (run_invariant (fun s => Sound s ∧ Agrees s) hinv ⟨sound_init, agrees_init⟩ hall
      hrun).2.one
  · intro hfits
    exact allSteps_findsEmpty sound_init hfits hrun

/-- Threads that come one after the other are all given the context of the first. -/
theorem oneContext_in_turn :
    ∃ t, run step init [.lookup 0 3 true, .create 0, .lookup 1 3 true, .lookup 2 3 false] = some t ∧
      t.log = [.got 3 true (some 0), .got 3 true (some 0), .got 3 false (some 0)] ∧
      OneContext t.log := by
  have hrun : (run step init
        [.lookup 0 3 true, .create 0, .lookup 1 3 true, .lookup 2 3 false]).map State.log =
      some [.got 3 true (some 0), .got 3 true (some 0), .got 3 false (some 0)] := by decide
  obtain ⟨t, ht, hlog⟩ := Option.map_eq_some_iff.mp hrun
  exact ⟨t, ht, hlog, (oneContext_run ht).1 (by decide)⟩

/-- Two threads look the same descriptor up before one of them creates its context: each of
them creates one, and only the second is in the table. -/
theorem two_contexts :
    ∃ t, run step init
        [.lookup 0 3 true, .lookup 1 3 true, .create 0, .create 1, .lookup 0 3 false] = some t ∧
      t.log = [.got 3 true (some 0), .got 3 true (some 1), .got 3 false (some 1)] ∧
      ¬OneContext t.log := by
  have hrun : (run step init
        [.lookup 0 3 true, .lookup 1 3 true, .create 0, .create 1, .lookup 0 3 false]).map
          State.log =
      some [.got 3 true (some 0), .got 3 true (some 1), .got 3 false (some 1)] := by decide
  obtain ⟨t, ht, hlog⟩ := Option.map_eq_some_iff.mp hrun
  refine ⟨t, ht, hlog, fun h => ?_⟩
  rw [hlog] at h
  have hret : Returned [.got 3 true (some 0)] 3 (some 0) := ⟨[], [], rfl, by simp⟩
  have heq :=
    h [.got 3 true (some 0)] [.got 3 false (some 1)] 3 true (some 1) (by decide) rfl _ hret
  exact absurd heq (by decide)

end Xzmjx.FdManagerModel
