import Mathlib.Tactic.Common

/-!
# Push parsers

A push parser receives its input in chunks, one call for each, and reports what
it recognises through callbacks. Elements of the input (a name, a value, a body)
are handed out as fragments: a mark is set where an element begins, the bytes
from the mark on form the fragment, and a call that ends inside an element hands
out what it has. Cutting the input inside an element therefore splits its
fragment, and whether that is harmless depends on the element's callback.
-/
namespace PushParser

variable {σ β κ ν ε γ : Type*}

/-- What a byte makes the parser do. An emitted fragment ends before the byte or, with
`through`, after it; a refused one ends the call before the byte or, with `advance`, after it. -/
inductive Action (κ ν ε : Type*)
  | mark (k : κ)
  | emit (k : κ) (through advance : Bool)
  | notify (n : ν)
  | fail (e : ε)
  | stop
  deriving DecidableEq, Repr

/-- The control of a parser: what a call does to it before the first byte and after the last
one, the element that a call finds open, and the step for each byte. -/
structure Machine (σ β κ ν ε : Type*) where
  enter : σ → σ
  resume : σ → Option κ
  step : σ → β → σ × List (Action κ ν ε)
  leave : σ → Except ε σ

/-- The callbacks. Only those for data can refuse. -/
structure Client (β κ ν ε γ : Type*) where
  data : κ → List β → γ → Except ε γ
  notify : ν → γ → γ

inductive Status (ε : Type*)
  | running
  | stopped
  | failed (e : ε)
  deriving DecidableEq, Repr

/-- A call in progress: the open fragment and the number of bytes parsed belong to the call. -/
structure Run (σ β κ ε γ : Type*) where
  ctrl : σ
  frag : Option (κ × List β)
  client : γ
  status : Status ε
  parsed : ℕ

/-- What is left of a parser between two calls. -/
structure Parser (σ ε γ : Type*) where
  ctrl : σ
  client : γ
  errno : Option ε
  deriving DecidableEq, Repr

section Definitions
variable [DecidableEq κ]

def act (C : Client β κ ν ε γ) (b : β) (c : Run σ β κ ε γ) : Action κ ν ε → Run σ β κ ε γ
  | .mark k => { c with frag := some (c.frag.getD (k, [])) }
  | .emit k through advance =>
      match c.frag with
      | none => c
      | some (j, bs) =>
          if j = k then
            match C.data k (if through then bs ++ [b] else bs) c.client with
            | .ok g => { c with frag := none, client := g }
            | .error e => { c with status := .failed e, parsed := c.parsed + advance.toNat }
          else c
  | .notify n => { c with client := C.notify n c.client }
  | .fail e => { c with status := .failed e }
  | .stop => { c with status := .stopped, parsed := c.parsed + 1 }

def acts (C : Client β κ ν ε γ) (b : β) (c : Run σ β κ ε γ) :
    List (Action κ ν ε) → Run σ β κ ε γ
  | [] => c
  | a :: as =>
      match c.status with
      | .running => acts C b (act C b c a) as
      | _ => c

/-- The byte becomes part of the open fragment once its actions are done. -/
def advance (b : β) (c : Run σ β κ ε γ) : Run σ β κ ε γ :=
  match c.status with
  | .running =>
      { c with frag := c.frag.map fun f => (f.1, f.2 ++ [b]), parsed := c.parsed + 1 }
  | _ => c

variable (M : Machine σ β κ ν ε) (C : Client β κ ν ε γ)

def byte (c : Run σ β κ ε γ) (b : β) : Run σ β κ ε γ :=
  match c.status with
  | .running => advance b (acts C b { c with ctrl := (M.step c.ctrl b).1 } (M.step c.ctrl b).2)
  | _ => c

def run (c : Run σ β κ ε γ) (bs : List β) : Run σ β κ ε γ := bs.foldl (byte M C) c

def start (p : Parser σ ε γ) : Run σ β κ ε γ where
  ctrl := M.enter p.ctrl
  frag := (M.resume p.ctrl).map fun k => (k, [])
  client := p.client
  status := .running
  parsed := 0

/-- The end of a call: a fragment that is still open is handed out. -/
def finish (c : Run σ β κ ε γ) : Parser σ ε γ × ℕ :=
  match c.status with
  | .failed e => (⟨c.ctrl, c.client, some e⟩, c.parsed)
  | .stopped => (⟨c.ctrl, c.client, none⟩, c.parsed)
  | .running =>
      match M.leave c.ctrl with
      | .error e => (⟨c.ctrl, c.client, some e⟩, c.parsed - 1)
      | .ok s =>
          match c.frag with
          | none => (⟨s, c.client, none⟩, c.parsed)
          | some (k, bs) =>
              match C.data k bs c.client with
              | .ok g => (⟨s, g, none⟩, c.parsed)
              | .error e => (⟨s, c.client, some e⟩, c.parsed)

/-- One call. A parser that has failed does nothing. -/
def feed (p : Parser σ ε γ) (bs : List β) : Parser σ ε γ × ℕ :=
  match p.errno with
  | some _ => (p, 0)
  | none => finish M C (run M C (start M p) bs)

def feedAll (p : Parser σ ε γ) (chunks : List (List β)) : Parser σ ε γ :=
  chunks.foldl (fun p bs => (feed M C p bs).1) p

end Definitions

/-- A call boundary in this control does not show. -/
structure Machine.Quiet (M : Machine σ β κ ν ε) (s : σ) : Prop where
  enter : M.enter s = s
  resume : M.resume s = none
  leave : M.leave s = .ok s

/-- The parser rejects a byte before it closes the element that is open in `s`. -/
def Machine.rejectsOpen (M : Machine σ β κ ν ε) : σ → List β → Bool
  | _, [] => false
  | s, b :: bs =>
      match (M.step s b).2 with
      | [.mark _] => M.rejectsOpen (M.step s b).1 bs
      | [.fail _] => true
      | _ => false

/-- The ways in which a byte goes on with an open element `k` even if its mark is not set. -/
inductive Reopens (k : κ) (stays : Prop) : List (Action κ ν ε) → Prop
  | reject (e : ε) : Reopens k stays [.fail e]
  | close {adv : Bool} {as : List (Action κ ν ε)} : Reopens k stays (.emit k false adv :: as)
  | last {thr adv : Bool} {as : List (Action κ ν ε)} :
      Reopens k stays (.mark k :: .emit k thr adv :: as)
  | more (h : stays) : Reopens k stays [.mark k]

/-- An element whose fragments may be cut: its callback accepts every fragment, takes two
fragments as it takes their concatenation, and the parser sets its mark again by itself. -/
structure Resumable [DecidableEq κ] (M : Machine σ β κ ν ε) (C : Client β κ ν ε γ) (k : κ)
    (Open : σ → Prop) : Prop where
  accepts : ∀ xs g, ∃ g', C.data k xs g = .ok g'
  append : ∀ xs ys g g', C.data k xs g = .ok g' → C.data k (xs ++ ys) g = C.data k ys g'
  step : ∀ s b, Open s → Reopens k (Open (M.step s b).1) (M.step s b).2
  quiet : ∀ s, Open s → M.Quiet s

section Theory
variable [DecidableEq κ] {M : Machine σ β κ ν ε} {C : Client β κ ν ε γ}

@[simp] theorem run_nil (c : Run σ β κ ε γ) : run M C c [] = c := rfl

@[simp] theorem run_cons (c : Run σ β κ ε γ) (b : β) (bs : List β) :
    run M C c (b :: bs) = run M C (byte M C c b) bs := rfl

theorem run_append (c : Run σ β κ ε γ) (xs ys : List β) :
    run M C c (xs ++ ys) = run M C (run M C c xs) ys := by
  simp [run, List.foldl_append]

theorem byte_of_ne_running {c : Run σ β κ ε γ} (h : c.status ≠ .running) (b : β) :
    byte M C c b = c := by
  unfold byte
  split
  · contradiction
  · rfl

theorem run_of_ne_running {c : Run σ β κ ε γ} (h : c.status ≠ .running) (bs : List β) :
    run M C c bs = c := by
  induction bs with
  | nil => rfl
  | cons b bs ih => rw [run_cons, byte_of_ne_running h, ih]

theorem running_of_run {c : Run σ β κ ε γ} {bs : List β}
    (h : (run M C c bs).status = .running) : c.status = .running := by
  by_contra hne
  rw [run_of_ne_running hne] at h
  contradiction

theorem acts_of_ne_running {c : Run σ β κ ε γ} (h : c.status ≠ .running) (b : β)
    (as : List (Action κ ν ε)) : acts C b c as = c := by
  cases as with
  | nil => rfl
  | cons a as =>
      unfold acts
      split
      · contradiction
      · rfl

@[simp] theorem acts_cons_running {c : Run σ β κ ε γ} (h : c.status = .running) (b : β)
    (a : Action κ ν ε) (as : List (Action κ ν ε)) :
    acts C b c (a :: as) = acts C b (act C b c a) as := by
  rw [acts, h]

/-! ### The count of parsed bytes does not steer a run -/

/-- Two runs that differ in the count of parsed bytes at most. -/
def Level (w c : Run σ β κ ε γ) : Prop := ∃ n, c = { w with parsed := n }

omit [DecidableEq κ] in
theorem Level.refl (w : Run σ β κ ε γ) : Level w w := ⟨w.parsed, rfl⟩

theorem Level.act {w c : Run σ β κ ε γ} (h : Level w c) (b : β) (a : Action κ ν ε) :
    Level (PushParser.act C b w a) (PushParser.act C b c a) := by
  obtain ⟨n, rfl⟩ := h
  cases a with
  | mark k => exact ⟨n, rfl⟩
  | notify m => exact ⟨n, rfl⟩
  | fail e => exact ⟨n, rfl⟩
  | stop => exact ⟨n + 1, rfl⟩
  | emit k thr adv =>
      obtain ⟨s, f, g, t, m⟩ := w
      cases f with
      | none => exact ⟨n, rfl⟩
      | some f =>
          obtain ⟨j, bs⟩ := f
          by_cases hj : j = k
          · subst hj
            cases hd : C.data j (if thr then bs ++ [b] else bs) g with
            | ok g' => exact ⟨n, by simp [PushParser.act, hd]⟩
            | error e => exact ⟨n + adv.toNat, by simp [PushParser.act, hd]⟩
          · exact ⟨n, by simp [PushParser.act, hj]⟩

theorem Level.acts {w c : Run σ β κ ε γ} (h : Level w c) (b : β) (as : List (Action κ ν ε)) :
    Level (PushParser.acts C b w as) (PushParser.acts C b c as) := by
  induction as generalizing w c with
  | nil => exact h
  | cons a as ih =>
      have hs : c.status = w.status := by obtain ⟨n, rfl⟩ := h; rfl
      by_cases hr : w.status = .running
      · rw [acts_cons_running hr, acts_cons_running (hs.trans hr)]
        exact ih (h.act b a)
      · rw [acts_of_ne_running hr, acts_of_ne_running (hs ▸ hr)]
        exact h

omit [DecidableEq κ] in
theorem Level.advance {w c : Run σ β κ ε γ} (h : Level w c) (b : β) :
    Level (PushParser.advance b w) (PushParser.advance b c) := by
  obtain ⟨n, rfl⟩ := h
  obtain ⟨s, f, g, t, m⟩ := w
  cases t with
  | running => exact ⟨n + 1, rfl⟩
  | stopped => exact ⟨n, rfl⟩
  | failed e => exact ⟨n, rfl⟩

theorem Level.byte {w c : Run σ β κ ε γ} (h : Level w c) (b : β) :
    Level (PushParser.byte M C w b) (PushParser.byte M C c b) := by
  obtain ⟨n, rfl⟩ := h
  obtain ⟨s, f, g, t, m⟩ := w
  cases t with
  | running => exact (Level.acts ⟨n, rfl⟩ b _).advance b
  | stopped => exact ⟨n, rfl⟩
  | failed e => exact ⟨n, rfl⟩

omit [DecidableEq κ] in
theorem Level.finish {w c : Run σ β κ ε γ} (h : Level w c) :
    (PushParser.finish M C w).1 = (PushParser.finish M C c).1 := by
  obtain ⟨n, rfl⟩ := h
  obtain ⟨s, f, g, t, m⟩ := w
  unfold PushParser.finish
  cases t with
  | stopped => rfl
  | failed e => rfl
  | running =>
      cases M.leave s with
      | error e => rfl
      | ok s' =>
          cases f with
          | none => rfl
          | some f => cases hd : C.data f.1 f.2 g <;> simp [hd]

/-! ### What is open after a byte -/

/-- The element that is open after the actions, if they all succeed. -/
def openAfter : Option κ → List (Action κ ν ε) → Option (Option κ)
  | o, [] => some o
  | o, .mark k :: as => openAfter (some (o.getD k)) as
  | o, .emit k _ _ :: as => openAfter (if o = some k then none else o) as
  | o, .notify _ :: as => openAfter o as
  | _, .fail _ :: _ => none
  | _, .stop :: _ => none

theorem acts_running {c : Run σ β κ ε γ} {b : β} {as : List (Action κ ν ε)}
    (h : (acts C b c as).status = .running) :
    (acts C b c as).ctrl = c.ctrl ∧ (acts C b c as).parsed = c.parsed ∧
      openAfter (c.frag.map Prod.fst) as = some ((acts C b c as).frag.map Prod.fst) := by
  induction as generalizing c with
  | nil => exact ⟨rfl, rfl, rfl⟩
  | cons a as ih =>
      by_cases hr : c.status = .running
      · rw [acts_cons_running hr] at h ⊢
        have hlast := ih h
        obtain ⟨s, f, g, t, m⟩ := c
        obtain rfl : t = _ := hr
        cases a with
        | mark k =>
            cases f with
            | none => exact hlast
            | some f => exact hlast
        | notify n => exact hlast
        | fail e =>
            rw [acts_of_ne_running (by simp [act])] at h
            cases h
        | stop =>
            rw [acts_of_ne_running (by simp [act])] at h
            cases h
        | emit k thr adv =>
            cases f with
            | none => simpa [act, openAfter] using hlast
            | some f =>
                obtain ⟨j, bs⟩ := f
                by_cases hj : j = k
                · subst hj
                  cases hd : C.data j (if thr then bs ++ [b] else bs) g with
                  | ok g' => simpa [act, openAfter, hd] using hlast
                  | error e =>
                      rw [acts_of_ne_running (by simp [act, hd])] at h
                      simp [act, hd] at h
                · simpa [act, openAfter, hj] using hlast
      · rw [acts_of_ne_running hr] at h
        contradiction

theorem byte_running {c : Run σ β κ ε γ} {b : β} (h : (byte M C c b).status = .running) :
    c.status = .running ∧ (byte M C c b).ctrl = (M.step c.ctrl b).1 ∧
      (byte M C c b).parsed = c.parsed + 1 ∧
      openAfter (c.frag.map Prod.fst) (M.step c.ctrl b).2 =
        some ((byte M C c b).frag.map Prod.fst) := by
  by_cases hr : c.status = .running
  · refine ⟨hr, ?_⟩
    simp only [byte, hr] at h ⊢
    have ha : (acts C b { c with ctrl := (M.step c.ctrl b).1, status := .running }
        (M.step c.ctrl b).2).status = .running := by
      unfold advance at h
      split at h
      · assumption
      · exact h
    obtain ⟨hctrl, hparsed, hopen⟩ := acts_running ha
    simp only [advance, ha]
    refine ⟨hctrl, by rw [hparsed], ?_⟩
    rw [hopen]
    cases (acts C b { c with ctrl := (M.step c.ctrl b).1, status := .running }
      (M.step c.ctrl b).2).frag <;> rfl
  · rw [byte_of_ne_running hr] at h
    contradiction

/-- An invariant of the control and the open element holds as long as a call runs. -/
theorem run_invariant (I : σ → Option κ → Prop)
    (hstep : ∀ s b o o', I s o → openAfter o (M.step s b).2 = some o' → I (M.step s b).1 o')
    {c : Run σ β κ ε γ} (hc : I c.ctrl (c.frag.map Prod.fst)) {bs : List β}
    (h : (run M C c bs).status = .running) :
    I (run M C c bs).ctrl ((run M C c bs).frag.map Prod.fst) := by
  induction bs generalizing c with
  | nil => exact hc
  | cons b bs ih =>
      rw [run_cons] at h ⊢
      obtain ⟨-, hctrl, -, hopen⟩ := byte_running (running_of_run h)
      refine ih ?_ h
      rw [hctrl]
      exact hstep _ _ _ _ hc hopen

theorem run_parsed {c : Run σ β κ ε γ} {bs : List β} (h : (run M C c bs).status = .running) :
    (run M C c bs).parsed = c.parsed + bs.length := by
  induction bs generalizing c with
  | nil => rfl
  | cons b bs ih =>
      rw [run_cons] at h ⊢
      obtain ⟨-, -, hparsed, -⟩ := byte_running (running_of_run h)
      rw [ih h, hparsed, List.length_cons]
      omega

theorem eq_stop_of_act {c : Run σ β κ ε γ} {b : β} {a : Action κ ν ε} (hr : c.status = .running)
    (h : (act C b c a).status = .stopped) : a = .stop := by
  obtain ⟨s, f, g, t, m⟩ := c
  obtain rfl : t = _ := hr
  cases a with
  | stop => rfl
  | mark k => cases h
  | notify n => cases h
  | fail e => cases h
  | emit k thr adv =>
      cases f with
      | none => cases h
      | some f =>
          obtain ⟨j, bs⟩ := f
          by_cases hj : j = k
          · subst hj
            cases hd : C.data j (if thr then bs ++ [b] else bs) g <;> simp [act, hd] at h
          · simp [act, hj] at h

theorem acts_stopped_parsed {c : Run σ β κ ε γ} {b : β} {as : List (Action κ ν ε)}
    (hr : c.status = .running) (h : (acts C b c as).status = .stopped) :
    0 < (acts C b c as).parsed := by
  induction as generalizing c with
  | nil =>
      rw [acts, hr] at h
      cases h
  | cons a as ih =>
      rw [acts_cons_running hr] at h ⊢
      by_cases hr' : (act C b c a).status = .running
      · exact ih hr' h
      · rw [acts_of_ne_running hr'] at h ⊢
        obtain rfl := eq_stop_of_act hr h
        exact Nat.succ_pos c.parsed

/-- The byte at which a call stops. -/
theorem run_stopped {c : Run σ β κ ε γ} {bs : List β} (hr : c.status = .running)
    (h : (run M C c bs).status = .stopped) :
    ∃ xs b ys, bs = xs ++ b :: ys ∧ (run M C c xs).status = .running ∧
      run M C c bs = acts C b { run M C c xs with ctrl := (M.step (run M C c xs).ctrl b).1 }
        (M.step (run M C c xs).ctrl b).2 := by
  induction bs generalizing c with
  | nil =>
      rw [run_nil, hr] at h
      cases h
  | cons b bs ih =>
      by_cases hr' : (byte M C c b).status = .running
      · obtain ⟨xs, b', ys, rfl, hrun, heq⟩ := ih hr' h
        exact ⟨b :: xs, b', ys, rfl, hrun, heq⟩
      · refine ⟨[], b, bs, rfl, hr, ?_⟩
        rw [run_cons, run_of_ne_running hr', run_nil]
        have hbyte : byte M C c b = advance b (acts C b { c with ctrl := (M.step c.ctrl b).1 }
            (M.step c.ctrl b).2) := by
          rw [byte, hr]
        rw [hbyte] at hr' ⊢
        unfold advance at hr' ⊢
        split
        · next ha => simp [ha] at hr'
        · rfl

/-! ### Cuts that do not show -/

variable (M C) in
/-- `c` is a run of later calls on the input that `w` reads in one call, with `rest` to come.
They are level, or `c` has already handed out a part `xs` of the fragment that `w` holds. -/
inductive Sync (k : κ) (Open : σ → Prop) (rest : List β) :
    Run σ β κ ε γ → Run σ β κ ε γ → Prop
  | level {w c : Run σ β κ ε γ} (h : Level w c) : Sync k Open rest w c
  | behind {s : σ} {g g' : γ} {m n : ℕ} {xs ys : List β} {f : Option (κ × List β)} (hs : Open s)
      (hrej : M.rejectsOpen s rest = false) (hd : C.data k xs g = .ok g')
      (hf : f = some (k, ys) ∨ f = none ∧ ys = []) :
      Sync k Open rest ⟨s, some (k, xs ++ ys), g, .running, m⟩ ⟨s, f, g', .running, n⟩

variable {k : κ} {Open : σ → Prop} {rest : List β}

omit [DecidableEq κ] in
/-- A call that ends inside an element leaves the run behind at the start of the next call. -/
theorem Sync.reopen {s : σ} {g g' : γ} {m : ℕ} {xs : List β} (hs : Open s)
    (hrej : M.rejectsOpen s rest = false) (hd : C.data k xs g = .ok g') :
    Sync M C k Open rest ⟨s, some (k, xs), g, .running, m⟩ ⟨s, none, g', .running, 0⟩ := by
  have h : Sync M C k Open rest ⟨s, some (k, xs ++ []), g, .running, m⟩
      ⟨s, none, g', .running, 0⟩ := .behind hs hrej hd (Or.inr ⟨rfl, rfl⟩)
  rwa [List.append_nil] at h

/-- Handing out the rest of a fragment brings both runs to the same client. -/
theorem Resumable.emit_rest (hk : Resumable M C k Open) {xs ys : List β} {g g' : γ}
    {f : Option (κ × List β)} (hd : C.data k xs g = .ok g')
    (hf : f = some (k, ys) ∨ f = none ∧ ys = []) :
    ∃ g'', C.data k (xs ++ ys) g = .ok g'' ∧
      (f = some (k, ys) ∧ C.data k ys g' = .ok g'' ∨ f = none ∧ g' = g'') := by
  obtain ⟨g'', hg⟩ := hk.accepts (xs ++ ys) g
  refine ⟨g'', hg, ?_⟩
  rcases hf with rfl | ⟨rfl, rfl⟩
  · exact Or.inl ⟨rfl, (hk.append xs ys g g' hd).symm.trans hg⟩
  · rw [List.append_nil, hd] at hg
    exact Or.inr ⟨rfl, Except.ok.inj hg⟩

theorem Sync.byte (hk : Resumable M C k Open) {w c : Run σ β κ ε γ} {b : β}
    (h : Sync M C k Open (b :: rest) w c) :
    Sync M C k Open rest (PushParser.byte M C w b) (PushParser.byte M C c b) := by
  cases h with
  | level h => exact .level (h.byte b)
  | @behind s g g' m n xs ys f hs hrej hd hf =>
      have hstep := hk.step s b hs
      simp only [PushParser.byte]
      rw [Machine.rejectsOpen] at hrej
      generalize M.step s b = step at hstep hrej ⊢
      obtain ⟨s', as⟩ := step
      cases hstep with
      | reject e => simp at hrej
      | close =>
          obtain ⟨g'', hw, ⟨rfl, hc⟩ | ⟨rfl, rfl⟩⟩ := hk.emit_rest hd hf
          · refine .level (Level.advance ?_ b)
            rw [acts_cons_running rfl, acts_cons_running rfl]
            exact Level.acts ⟨n, by simp [act, hw, hc]⟩ b _
          · refine .level (Level.advance ?_ b)
            rw [acts_cons_running rfl, acts_cons_running rfl]
            exact Level.acts ⟨n, by simp [act, hw]⟩ b _
      | @last thr adv as =>
          refine .level (Level.advance ?_ b)
          rw [acts_cons_running rfl, acts_cons_running rfl, acts_cons_running rfl,
            acts_cons_running rfl]
          have hf' : f.getD (k, []) = (k, ys) := by
            rcases hf with rfl | ⟨rfl, rfl⟩ <;> rfl
          have hsame : C.data k (if thr then xs ++ (ys ++ [b]) else xs ++ ys) g =
              C.data k (if thr then ys ++ [b] else ys) g' := by
            cases thr
            · exact hk.append xs ys g g' hd
            · exact hk.append xs (ys ++ [b]) g g' hd
          obtain ⟨g'', hw⟩ := hk.accepts (if thr then ys ++ [b] else ys) g'
          refine Level.acts ⟨n, ?_⟩ b _
          simp [act, hf', hw, hsame.trans hw]
      | more hs' =>
          have hf' : f.getD (k, []) = (k, ys) := by
            rcases hf with rfl | ⟨rfl, rfl⟩ <;> rfl
          have hnext : Sync M C k Open rest ⟨s', some (k, xs ++ (ys ++ [b])), g, .running, m + 1⟩
              ⟨s', some (k, ys ++ [b]), g', .running, n + 1⟩ :=
            .behind hs' (by simpa using hrej) hd (Or.inl rfl)
          simpa [acts, act, PushParser.advance, hf'] using hnext

theorem Sync.run (hk : Resumable M C k Open) {w c : Run σ β κ ε γ} {bs : List β}
    (h : Sync M C k Open (bs ++ rest) w c) :
    Sync M C k Open rest (PushParser.run M C w bs) (PushParser.run M C c bs) := by
  induction bs generalizing w c with
  | nil => exact h
  | cons b bs ih => exact ih (h.byte hk)

theorem Sync.finish (hk : Resumable M C k Open) {w c : Run σ β κ ε γ}
    (h : Sync M C k Open rest w c) :
    (PushParser.finish M C w).1 = (PushParser.finish M C c).1 := by
  cases h with
  | level h => exact h.finish
  | behind hs _ hd hf =>
      obtain ⟨g'', hw, ⟨rfl, hc⟩ | ⟨rfl, rfl⟩⟩ := hk.emit_rest hd hf
      · simp [PushParser.finish, (hk.quiet _ hs).leave, hw, hc]
      · simp [PushParser.finish, (hk.quiet _ hs).leave, hw]

variable (M) in
/-- The input may be cut where the run `w` stands, with `rest` to come: the parser has failed,
or no element is open, or one that is resumable and not rejected before its end. -/
inductive CleanCut (k : κ) (Open : σ → Prop) (rest : List β) (w : Run σ β κ ε γ) : Prop
  | failed {e : ε} (h : w.status = .failed e)
  | between (hr : w.status = .running) (hq : M.Quiet w.ctrl) (hf : w.frag = none)
  | inside {xs : List β} (hr : w.status = .running) (hf : w.frag = some (k, xs))
      (ho : Open w.ctrl) (hrej : M.rejectsOpen w.ctrl rest = false)

variable (M C) in
/-- The parser `p` between two calls stands where `w` stands in its one call. -/
inductive Linked (k : κ) (Open : σ → Prop) (rest : List β) (w : Run σ β κ ε γ)
    (p : Parser σ ε γ) : Prop
  | live (hp : p.errno = none) (h : Sync M C k Open rest w (start M p))
  | dead {e : ε} (hw : w.status = .failed e) (hp : p = ⟨w.ctrl, w.client, some e⟩)

omit [DecidableEq κ] in
theorem Linked.start {p : Parser σ ε γ} (hp : p.errno = none) :
    Linked M C k Open rest (PushParser.start M p) p :=
  .live hp (.level (.refl _))

theorem Linked.feed (hk : Resumable M C k Open) {w : Run σ β κ ε γ} {p : Parser σ ε γ}
    {bs : List β} (h : Linked M C k Open (bs ++ rest) w p)
    (hcut : CleanCut M k Open rest (PushParser.run M C w bs)) :
    Linked M C k Open rest (PushParser.run M C w bs) (PushParser.feed M C p bs).1 := by
  cases h with
  | dead hw hp =>
      rw [run_of_ne_running (by simp [hw])]
      exact .dead hw (by rw [hp, PushParser.feed])
  | live hp h =>
      have hsync := h.run hk
      rw [PushParser.feed, hp]
      revert hsync hcut
      generalize PushParser.run M C w bs = w'
      generalize PushParser.run M C (PushParser.start M p) bs = c'
      intro hcut hsync
      cases hsync with
      | level hl =>
          obtain ⟨n, rfl⟩ := hl
          obtain ⟨s, f, g, t, m⟩ := w'
          cases hcut with
          | failed h =>
              obtain rfl : t = _ := h
              exact .dead rfl rfl
          | between hr hq hf =>
              obtain rfl : t = _ := hr
              obtain rfl : f = none := hf
              obtain ⟨he, hres, hl⟩ := hq
              simp only at he hres hl
              refine .live (by simp [PushParser.finish, hl]) (.level ⟨0, ?_⟩)
              simp [PushParser.finish, PushParser.start, hl, he, hres]
          | @inside xs hr hf ho hrej =>
              obtain rfl : t = _ := hr
              obtain rfl : f = some (k, xs) := hf
              obtain ⟨he, hres, hl⟩ := hk.quiet s ho
              obtain ⟨g', hg⟩ := hk.accepts xs g
              refine .live (by simp [PushParser.finish, hl, hg]) ?_
              simpa [PushParser.finish, PushParser.start, hl, hg, he, hres] using
                Sync.reopen ho hrej hg
      | @behind s g g' m n xs ys f hs hrej hd hf =>
          obtain ⟨he, hres, hl⟩ := hk.quiet s hs
          obtain ⟨g'', hw, ⟨rfl, hc⟩ | ⟨rfl, rfl⟩⟩ := hk.emit_rest hd hf
          · refine .live (by simp [PushParser.finish, hl, hc]) ?_
            simpa [PushParser.finish, PushParser.start, hl, hc, he, hres] using
              Sync.reopen hs hrej hw
          · refine .live (by simp [PushParser.finish, hl]) ?_
            simpa [PushParser.finish, PushParser.start, hl, he, hres] using
              Sync.reopen hs hrej hw

theorem Linked.feed_last (hk : Resumable M C k Open) {w : Run σ β κ ε γ} {p : Parser σ ε γ}
    {bs : List β} (h : Linked M C k Open bs w p) :
    (PushParser.feed M C p bs).1 = (PushParser.finish M C (PushParser.run M C w bs)).1 := by
  cases h with
  | dead hw hp =>
      rw [run_of_ne_running (by simp [hw]), PushParser.finish, hw, hp, PushParser.feed]
  | live hp h =>
      have hall : Sync M C k Open (bs ++ []) w (PushParser.start M p) := by simpa using h
      rw [PushParser.feed, hp]
      exact ((hall.run hk).finish hk).symm

variable (M C) in
/-- Every cut between two of the chunks is clean, where `w` is the run that is not cut. -/
def CleanCuts (k : κ) (Open : σ → Prop) (w : Run σ β κ ε γ) : List (List β) → Prop
  | [] => True
  | [_] => True
  | x :: y :: zs =>
      CleanCut M k Open (y :: zs).flatten (run M C w x) ∧
        CleanCuts k Open (run M C w x) (y :: zs)

theorem Linked.feedAll (hk : Resumable M C k Open) {w : Run σ β κ ε γ} {p : Parser σ ε γ}
    {chunks : List (List β)} (hne : chunks ≠ [])
    (h : Linked M C k Open chunks.flatten w p) (hcuts : CleanCuts M C k Open w chunks) :
    PushParser.feedAll M C p chunks =
      (PushParser.finish M C (PushParser.run M C w chunks.flatten)).1 := by
  induction chunks generalizing w p with
  | nil => contradiction
  | cons x chunks ih =>
      cases chunks with
      | nil =>
          simp only [List.flatten_cons, List.flatten_nil, List.append_nil] at h ⊢
          exact h.feed_last hk
      | cons y zs =>
          rw [List.flatten_cons] at h
          rw [List.flatten_cons, run_append]
          exact ih (by simp) (h.feed hk hcuts.1) hcuts.2

/-- Clean cuts do not show: feeding the chunks is feeding their concatenation in one call. -/
theorem feedAll_eq_feed (hk : Resumable M C k Open) {p : Parser σ ε γ} (hp : p.errno = none)
    {chunks : List (List β)} (hne : chunks ≠ [])
    (hcuts : CleanCuts M C k Open (start M p) chunks) :
    feedAll M C p chunks = (feed M C p chunks.flatten).1 := by
  rw [Linked.feedAll hk hne (.start hp) hcuts, feed, hp]

end Theory

end PushParser
