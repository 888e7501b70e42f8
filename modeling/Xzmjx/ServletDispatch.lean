import Mathlib.Data.Int.Notation
import Mathlib.Data.List.Induction
import Mathlib.Logic.Function.Basic
import Xzmjx.LastWrite

/-!
# Routing of requests to servlets

`m_datas` maps a uri to a servlet, `m_globs` is the vector of patterns in the order
of their registration, and `fnmatch` is a parameter. A null `Servlet::ptr` is `none`.
The order of the patterns is what decides between two that match, and registering a
pattern again moves it to the end; `LastWrite` says which registrations are live
after a history and since when.
-/
namespace Xzmjx.ServletModel
open LastWrite

/-- Servlets: objects of the user's classes, `FunctionServlet`s around a callback, and
the `NotFoundServlet`. -/
inductive Servlet
  | object (n : ℕ)
  | function (cb : ℕ)
  | notFound (name : String)
  deriving DecidableEq, Repr

abbrev Servlet.Ptr := Option Servlet

structure ServletDispatch where
  datas : String → Option Servlet.Ptr
  globs : List (String × Servlet.Ptr)
  default : Servlet.Ptr

namespace ServletDispatch

/-- The constructor. -/
def new : ServletDispatch := ⟨fun _ => none, [], some (.notFound "xzmjx/1.0")⟩

/-- The loop over `m_globs` that erases the first entry with the pattern. -/
def eraseGlob (d : ServletDispatch) (uri : String) : ServletDispatch :=
  { d with globs := d.globs.eraseP fun it => it.1 = uri }

def addServlet (d : ServletDispatch) (uri : String) (slt : Servlet.Ptr) : ServletDispatch :=
  { d with datas := Function.update d.datas uri (some slt) }

/-- The overload of `addServlet` for a callback. -/
def addServletCb (d : ServletDispatch) (uri : String) (cb : ℕ) : ServletDispatch :=
  { d with datas := Function.update d.datas uri (some (some (.function cb))) }

def addGlobServlet (d : ServletDispatch) (uri : String) (slt : Servlet.Ptr) : ServletDispatch :=
  let d := d.eraseGlob uri
  { d with globs := d.globs ++ [(uri, slt)] }

/-- The overload of `addGlobServlet` for a callback. -/
def addGlobServletCb (d : ServletDispatch) (uri : String) (cb : ℕ) : ServletDispatch :=
  let d := d.eraseGlob uri
  { d with globs := d.globs ++ [(uri, some (.function cb))] }

def delServlet (d : ServletDispatch) (uri : String) : ServletDispatch :=
  { d with datas := Function.update d.datas uri none }

def delGlobServlet (d : ServletDispatch) (uri : String) : ServletDispatch := d.eraseGlob uri

def setDefaultServlet (d : ServletDispatch) (slt : Servlet.Ptr) : ServletDispatch :=
  { d with default := slt }

/-- Null if the uri has no entry. -/
def getServlet (d : ServletDispatch) (uri : String) : Servlet.Ptr := (d.datas uri).join

def getGlobServlet (d : ServletDispatch) (uri : String) : Servlet.Ptr :=
  ((d.globs.find? fun it => it.1 = uri).map Prod.snd).join

/-- `fnmatch` returns zero where the pattern matches. -/
def getMatchedServlet (fnmatch : String → String → ℤ) (d : ServletDispatch) (uri : String) :
    Servlet.Ptr :=
  match d.datas uri with
  | some slt => slt
  | none =>
      match d.globs.find? fun it => fnmatch it.1 uri = 0 with
      | some it => it.2
      | none => d.default

end ServletDispatch

inductive Op
  | addServlet (uri : String) (slt : Servlet.Ptr)
  | addServletCb (uri : String) (cb : ℕ)
  | addGlobServlet (uri : String) (slt : Servlet.Ptr)
  | addGlobServletCb (uri : String) (cb : ℕ)
  | delServlet (uri : String)
  | delGlobServlet (uri : String)
  | setDefaultServlet (slt : Servlet.Ptr)
  deriving DecidableEq, Repr

def exec (d : ServletDispatch) : Op → ServletDispatch
  | .addServlet uri slt => d.addServlet uri slt
  | .addServletCb uri cb => d.addServletCb uri cb
  | .addGlobServlet uri slt => d.addGlobServlet uri slt
  | .addGlobServletCb uri cb => d.addGlobServletCb uri cb
  | .delServlet uri => d.delServlet uri
  | .delGlobServlet uri => d.delGlobServlet uri
  | .setDefaultServlet slt => d.setDefaultServlet slt

/-- The dispatch after a sequence of calls. -/
def after (ops : List Op) : ServletDispatch := ops.foldl exec .new

/-! ### The routes a history has left -/

/-- What a call does to the servlet registered for exactly this uri. -/
def Op.exactRoute (op : Op) (uri : String) : Option (Option Servlet.Ptr) :=
  match op with
  | .addServlet u slt => if uri = u then some (some slt) else none
  | .addServletCb u cb => if uri = u then some (some (some (.function cb))) else none
  | .delServlet u => if uri = u then some none else none
  | _ => none

/-- What a call does to the servlet registered for a pattern. -/
def Op.globRoute (op : Op) (pattern : String) : Option (Option Servlet.Ptr) :=
  match op with
  | .addGlobServlet u slt => if pattern = u then some (some slt) else none
  | .addGlobServletCb u cb => if pattern = u then some (some (some (.function cb))) else none
  | .delGlobServlet u => if pattern = u then some none else none
  | _ => none

/-- The servlet a uri is routed to after a history: the one last registered for exactly
that uri, else the one of the matching pattern whose latest registration is the
earliest, else the default. -/
inductive Routed (fnmatch : String → String → ℤ) (ops : List Op) (default : Servlet.Ptr)
    (uri : String) : Servlet.Ptr → Prop
  | exact {i : ℕ} {slt : Servlet.Ptr} (hlive : LiveSince Op.exactRoute ops uri i slt) :
      Routed fnmatch ops default uri slt
  | glob {i : ℕ} {pattern : String} {slt : Servlet.Ptr}
      (hexact : ∀ i slt, ¬LiveSince Op.exactRoute ops uri i slt)
      (hlive : LiveSince Op.globRoute ops pattern i slt) (hmatch : fnmatch pattern uri = 0)
      (hfirst : ∀ j pattern' slt', LiveSince Op.globRoute ops pattern' j slt' →
        fnmatch pattern' uri = 0 → i ≤ j) :
      Routed fnmatch ops default uri slt
  | default (hexact : ∀ i slt, ¬LiveSince Op.exactRoute ops uri i slt)
      (hglob : ∀ i pattern slt, LiveSince Op.globRoute ops pattern i slt →
        fnmatch pattern uri ≠ 0) :
      Routed fnmatch ops default uri default

/-! ### What the calls keep -/

/-- The dispatch holds the live registrations of the history. -/
structure Holds (ops : List Op) (d : ServletDispatch) : Prop where
  datas : ∀ uri slt, d.datas uri = some slt ↔ ∃ i, LiveSince Op.exactRoute ops uri i slt
  globs : ∃ entries, Tracks Op.globRoute ops entries ∧ entries.map Prod.snd = d.globs

variable {ops : List Op} {op : Op} {d : ServletDispatch}

theorem Holds.new : Holds [] .new :=
  ⟨by simp [ServletDispatch.new, not_liveSince_nil], [], .nil, rfl⟩

theorem Holds.globs_nodup (h : Holds ops d) : (d.globs.map Prod.fst).Nodup := by
  obtain ⟨entries, htracks, hglobs⟩ := h.globs
  have hnodup := htracks.keys_nodup
  rw [← hglobs, List.map_map]
  exact hnodup

/-- A call that leaves the uris alone keeps their map. -/
theorem datas_skip (h : Holds ops d) {d' : ServletDispatch} (hd : d'.datas = d.datas)
    (hop : ∀ uri, op.exactRoute uri = none) (uri : String) (slt : Servlet.Ptr) :
    d'.datas uri = some slt ↔ ∃ i, LiveSince Op.exactRoute (ops ++ [op]) uri i slt := by
  rw [hd, h.datas]
  simp [liveSince_append_singleton, hop]

/-- A call that registers or deletes one uri updates its map there. -/
theorem datas_update (h : Holds ops d) {u : String} {value : Option Servlet.Ptr}
    (hop : ∀ uri, op.exactRoute uri = if uri = u then some value else none) (uri : String)
    (slt : Servlet.Ptr) :
    Function.update d.datas u value uri = some slt ↔
      ∃ i, LiveSince Op.exactRoute (ops ++ [op]) uri i slt := by
  by_cases hu : uri = u
  · subst hu
    simp [liveSince_append_singleton, hop]
  · rw [Function.update_of_ne hu, h.datas]
    simp [liveSince_append_singleton, hop, hu]

theorem Holds.exactCall (h : Holds ops d) {u : String} {value : Option Servlet.Ptr}
    (hop : ∀ uri, op.exactRoute uri = if uri = u then some value else none)
    (hglob : ∀ pattern, op.globRoute pattern = none) :
    Holds (ops ++ [op]) { d with datas := Function.update d.datas u value } := by
  obtain ⟨entries, htracks, hglobs⟩ := h.globs
  exact ⟨datas_update h hop, entries, htracks.skip hglob, hglobs⟩

theorem eraseGlob_globs (h : Holds ops d) {entries : List (ℕ × String × Servlet.Ptr)}
    (hglobs : entries.map Prod.snd = d.globs) (u : String) :
    ((entries.filter fun e => e.2.1 ≠ u).map Prod.snd) = (d.eraseGlob u).globs := by
  rw [ServletDispatch.eraseGlob, eraseP_eq_filter h.globs_nodup, ← hglobs, List.filter_map]
  rfl

theorem Holds.globWrite (h : Holds ops d) {u : String} {slt : Servlet.Ptr}
    (hop : ∀ pattern, op.globRoute pattern = if pattern = u then some (some slt) else none)
    (hexact : ∀ uri, op.exactRoute uri = none) : Holds (ops ++ [op]) (d.addGlobServlet u slt) := by
  obtain ⟨entries, htracks, hglobs⟩ := h.globs
  refine ⟨datas_skip h rfl hexact, _, htracks.write hop, ?_⟩
  rw [List.map_append, eraseGlob_globs h hglobs]
  rfl

theorem Holds.exec (h : Holds ops d) (op : Op) : Holds (ops ++ [op]) (exec d op) := by
  cases op with
  | addServlet u slt => exact h.exactCall (fun _ => rfl) fun _ => rfl
  | addServletCb u cb => exact h.exactCall (fun _ => rfl) fun _ => rfl
  | delServlet u => exact h.exactCall (fun _ => rfl) fun _ => rfl
  | addGlobServlet u slt => exact h.globWrite (fun _ => rfl) fun _ => rfl
  | addGlobServletCb u cb => exact h.globWrite (fun _ => rfl) fun _ => rfl
  | delGlobServlet u =>
      obtain ⟨entries, htracks, hglobs⟩ := h.globs
      refine ⟨datas_skip h rfl fun _ => rfl, _, htracks.delete fun _ => rfl, ?_⟩
      exact eraseGlob_globs h hglobs u
  | setDefaultServlet slt =>
      obtain ⟨entries, htracks, hglobs⟩ := h.globs
      exact ⟨datas_skip h rfl fun _ => rfl, entries, htracks.skip fun _ => rfl, hglobs⟩

theorem holds_after (ops : List Op) : Holds ops (after ops) := by
  induction ops using List.reverseRecOn with
  | nil => exact .new
  | append_singleton ops op ih =>
      rw [after, List.foldl_append]
      exact ih.exec op

theorem Holds.routed (h : Holds ops d) (fnmatch : String → String → ℤ) (uri : String) :
    Routed fnmatch ops d.default uri (d.getMatchedServlet fnmatch uri) := by
  obtain ⟨entries, htracks, hglobs⟩ := h.globs
  unfold ServletDispatch.getMatchedServlet
  cases hdatas : d.datas uri with
  | some slt =>
      obtain ⟨i, hlive⟩ := (h.datas uri slt).mp hdatas
      exact .exact hlive
  | none =>
      have hexact : ∀ i slt, ¬LiveSince Op.exactRoute ops uri i slt := by
        intro i slt hlive
        have := (h.datas uri slt).mpr ⟨i, hlive⟩
        simp [hdatas] at this
      rw [← hglobs, List.find?_map]
      cases hfind : entries.find? _ with
      | some e =>
          obtain ⟨i, pattern, slt⟩ := e
          obtain ⟨hlive, hmatch, hfirst⟩ := htracks.find?_first hfind
          refine .glob hexact hlive (by simpa using hmatch) fun j pattern' slt' hlive' hmatch' => ?_
          exact hfirst j pattern' slt' hlive' (by simpa using hmatch')
      | none =>
          refine .default hexact fun i pattern slt hlive => ?_
          have hnone := List.find?_eq_none.mp hfind _ ((htracks.mem i pattern slt).mpr hlive)
          simpa using hnone

/-- The exact lookups find what is live. -/
theorem Holds.getServlet (h : Holds ops d) {uri : String} {i : ℕ} {slt : Servlet.Ptr}
    (hlive : LiveSince Op.exactRoute ops uri i slt) : d.getServlet uri = slt := by
  rw [ServletDispatch.getServlet, (h.datas uri slt).mpr ⟨i, hlive⟩]
  rfl

theorem Holds.getGlobServlet (h : Holds ops d) {pattern : String} {i : ℕ} {slt : Servlet.Ptr}
    (hlive : LiveSince Op.globRoute ops pattern i slt) : d.getGlobServlet pattern = slt := by
  obtain ⟨entries, htracks, hglobs⟩ := h.globs
  rw [ServletDispatch.getGlobServlet, ← hglobs, List.find?_map]
  cases hfind : entries.find? _ with
  | some e =>
      obtain ⟨j, pattern', slt'⟩ := e
      obtain ⟨hlive', hkey, -⟩ := htracks.find?_first hfind
      obtain rfl : pattern' = pattern := by simpa using hkey
      exact (hlive'.unique hlive).2
  | none =>
      have hnone := List.find?_eq_none.mp hfind _ ((htracks.mem i pattern slt).mpr hlive)
      simp at hnone

/-- Routes after any history. No pattern stands in `m_globs` twice, and a uri is
routed by the priority of `Routed`. -/
theorem getMatchedServlet_routed (fnmatch : String → String → ℤ) (ops : List Op) :
    ((after ops).globs.map Prod.fst).Nodup ∧
      ∀ uri, Routed fnmatch ops (after ops).default uri
        ((after ops).getMatchedServlet fnmatch uri) :=
  ⟨(holds_after ops).globs_nodup, (holds_after ops).routed fnmatch⟩

end Xzmjx.ServletModel
