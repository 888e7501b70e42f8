import Mathlib.Data.List.Induction
import Xzmjx.PushParser

/-!
# Pre- and postconditions of a run

A triple says where reading some bytes takes the runs that satisfy its precondition. The rules
compose triples along the input: one byte with the actions it causes, the bytes of one element,
a list of items that are all read in the same way.
-/
namespace PushParser

variable {σ β κ ν ε γ α : Type*} [DecidableEq κ]

/-- Reading `bs` takes every run in `P` to a run in `Q`. -/
def Triple (M : Machine σ β κ ν ε) (C : Client β κ ν ε γ) (P : Run σ β κ ε γ → Prop)
    (bs : List β) (Q : Run σ β κ ε γ → Prop) : Prop :=
  ∀ c, P c → Q (run M C c bs)

/-- A run with its control in `I`, the open fragment `o` and the client `g`. -/
structure At (I : σ → Prop) (o : Option (κ × List β)) (g : γ) (c : Run σ β κ ε γ) : Prop where
  running : c.status = .running
  ctrl : I c.ctrl
  frag : c.frag = o
  client : c.client = g

/-- The fragment `o` with more bytes. -/
def extend (o : Option (κ × List β)) (bs : List β) : Option (κ × List β) :=
  o.map fun f => (f.1, f.2 ++ bs)

omit [DecidableEq κ] in
@[simp] theorem extend_none (bs : List β) : extend (none : Option (κ × List β)) bs = none := rfl

omit [DecidableEq κ] in
@[simp] theorem extend_some (k : κ) (xs bs : List β) :
    extend (some (k, xs)) bs = some (k, xs ++ bs) := rfl

omit [DecidableEq κ] in
theorem extend_nil (o : Option (κ × List β)) : extend o [] = o := by
  cases o with
  | none => rfl
  | some f => rw [extend, Option.map_some, List.append_nil]

omit [DecidableEq κ] in
theorem extend_append (o : Option (κ × List β)) (xs ys : List β) :
    extend (extend o xs) ys = extend o (xs ++ ys) := by
  cases o with
  | none => rfl
  | some f => simp [extend]

variable {M : Machine σ β κ ν ε} {C : Client β κ ν ε γ} {P P' Q Q' R : Run σ β κ ε γ → Prop}
  {I J : σ → Prop} {o : Option (κ × List β)} {g g' : γ} {k : κ} {b : β} {bs xs ys : List β}

/-! ### Composition -/

namespace Triple

theorem nil (P : Run σ β κ ε γ → Prop) : Triple M C P [] P := fun _ h => h

theorem append (hx : Triple M C P xs Q) (hy : Triple M C Q ys R) :
    Triple M C P (xs ++ ys) R := by
  intro c hc
  rw [run_append]
  exact hy _ (hx c hc)

theorem cons (hb : Triple M C P [b] Q) (hbs : Triple M C Q bs R) : Triple M C P (b :: bs) R :=
  hb.append hbs

theorem weaken (h : Triple M C P bs Q) (hp : ∀ c, P' c → P c) (hq : ∀ c, Q c → Q' c) :
    Triple M C P' bs Q' := fun c hc => hq _ (h c (hp c hc))

/-- Items that are read one after another; the invariant speaks of those read so far. -/
theorem flatMap (items : List α) (I : List α → Run σ β κ ε γ → Prop) (f : α → List β)
    (h : ∀ done x, done ++ [x] <+: items → Triple M C (I done) (f x) (I (done ++ [x]))) :
    Triple M C (I []) (items.flatMap f) (I items) := by
  induction items using List.reverseRecOn with
  | nil => exact nil _
  | append_singleton items x ih =>
      rw [List.flatMap_append, List.flatMap_singleton]
      refine append (ih ?_) (h items x (List.prefix_refl _))
      intro done y hy
      exact h done y (hy.trans (List.prefix_append _ _))

end Triple

/-! ### One byte -/

/-- A byte that moves the control and nothing else. -/
theorem At.silent (h : ∀ s, I s → ∃ s', M.step s b = (s', []) ∧ J s') :
    Triple M C (At I o g) [b] (At J (extend o [b]) g) := by
  rintro ⟨s, f, g', t, n⟩ ⟨hr, hs, hf, hg⟩
  obtain rfl : t = _ := hr
  obtain rfl : f = o := hf
  obtain ⟨s', hstep, hs'⟩ := h s hs
  rw [run_cons, run_nil]
  simp only [byte, hstep, acts, advance]
  exact ⟨rfl, hs', rfl, hg⟩

/-- A byte that begins an element. -/
theorem At.mark (h : ∀ s, I s → ∃ s', M.step s b = (s', [.mark k]) ∧ J s') :
    Triple M C (At I none g) [b] (At J (some (k, [b])) g) := by
  rintro ⟨s, f, g', t, n⟩ ⟨hr, hs, hf, hg⟩
  obtain rfl : t = _ := hr
  obtain rfl : f = none := hf
  obtain ⟨s', hstep, hs'⟩ := h s hs
  rw [run_cons, run_nil]
  simp only [byte, hstep, acts, act, advance]
  exact ⟨rfl, hs', rfl, hg⟩

/-- The byte behind an element, which hands the element out. -/
theorem At.emit (adv : Bool) (hd : C.data k xs g = .ok g')
    (h : ∀ s, I s → ∃ s', M.step s b = (s', [.emit k false adv]) ∧ J s') :
    Triple M C (At I (some (k, xs)) g) [b] (At J none g') := by
  rintro ⟨s, f, g₀, t, n⟩ ⟨hr, hs, hf, hg⟩
  obtain rfl : t = _ := hr
  obtain rfl : f = some (k, xs) := hf
  obtain rfl : g₀ = g := hg
  obtain ⟨s', hstep, hs'⟩ := h s hs
  rw [run_cons, run_nil]
  simp only [byte, hstep, acts, act, if_true, Bool.false_eq_true, if_false, hd, advance]
  exact ⟨rfl, hs', rfl, rfl⟩

/-- Bytes that move the control and nothing else; the invariant speaks of those read so far. -/
theorem At.silents {I : List β → σ → Prop}
    (h : ∀ done b, done ++ [b] <+: bs → ∀ s, I done s →
      ∃ s', M.step s b = (s', []) ∧ I (done ++ [b]) s') :
    Triple M C (At (I []) o g) bs (At (I bs) (extend o bs) g) := by
  have hloop := Triple.flatMap (M := M) (C := C) bs
    (fun done => At (ε := ε) (I done) (extend o done) g) (fun b => [b]) (by
      intro done b hb
      rw [← extend_append]
      exact At.silent (h done b hb))
  rw [List.flatMap_singleton', extend_nil] at hloop
  exact hloop

/-- The fragment of an element of which `bs` has been read. -/
def opened (k : κ) (bs : List β) : Option (κ × List β) := if bs = [] then none else some (k, bs)

/-- Bytes that each set the mark of the element they belong to. -/
theorem At.marks {I : List β → σ → Prop}
    (h : ∀ done b, done ++ [b] <+: bs → ∀ s, I done s →
      ∃ s', M.step s b = (s', [.mark k]) ∧ I (done ++ [b]) s') :
    Triple M C (At (I []) none g) bs (At (I bs) (opened k bs) g) := by
  have hloop := Triple.flatMap (M := M) (C := C) bs
    (fun done => At (ε := ε) (I done) (opened k done) g) (fun b => [b]) (by
      rintro done b hb ⟨s, f, g', t, n⟩ ⟨hr, hs, hf, hg⟩
      obtain rfl : t = _ := hr
      obtain rfl : f = opened k done := hf
      obtain ⟨s', hstep, hs'⟩ := h done b hb s hs
      have hopened : opened k (done ++ [b]) = some (k, done ++ [b]) :=
        if_neg (List.append_ne_nil_of_right_ne_nil _ (List.cons_ne_nil _ _))
      rw [run_cons, run_nil, hopened]
      simp only [byte, hstep, acts, act, advance]
      refine ⟨rfl, hs', ?_, hg⟩
      by_cases hdone : done = []
      · simp [opened, hdone]
      · simp [opened, hdone])
  rw [List.flatMap_singleton'] at hloop
  exact hloop

/-- The last byte of an element, which hands the element out with it. -/
theorem At.last {n : ν} (hd : C.data k (xs ++ [b]) g = .ok g')
    (h : ∀ s, I s → ∃ s', M.step s b = (s', [.mark k, .emit k true false, .notify n]) ∧ J s') :
    Triple M C (At I (opened k xs) g) [b] (At J none (C.notify n g')) := by
  rintro ⟨s, f, g₀, t, m⟩ ⟨hr, hs, hf, hg⟩
  obtain rfl : t = _ := hr
  obtain rfl : f = opened k xs := hf
  obtain rfl : g₀ = g := hg
  obtain ⟨s', hstep, hs'⟩ := h s hs
  have hfrag : (opened k xs).getD (k, []) = (k, xs) := by
    by_cases hxs : xs = []
    · simp [opened, hxs]
    · simp [opened, hxs]
  rw [run_cons, run_nil]
  simp only [byte, hstep, acts, act, hfrag, if_true, hd, advance]
  exact ⟨rfl, hs', rfl, rfl⟩

end PushParser
