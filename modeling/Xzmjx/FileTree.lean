import Mathlib.Data.List.Infix
import Mathlib.Data.Nat.Bitwise
import Mathlib.Tactic.Common

/-!
# Trees of files

A tree holds a file at some of the paths, and for every directory the names that `readdir`
answers, in any order and with or without the two dots. Only a directory has files below it,
and no path is longer than some bound.

The type of a file is the upper part of its mode, above twelve bits of permissions. The
types are numbered, they are no flags.
-/
namespace FileTree

/-- The names from the root of the tree on. -/
abbrev Path := List String

inductive FileType where
  | socket
  | symlink (target : Path)
  | regular
  | block
  | directory
  | character
  | fifo
  deriving DecidableEq, Repr

/-- The bits under `S_IFMT`. -/
def FileType.bits : FileType → ℕ
  | .socket => 0o140000
  | .symlink _ => 0o120000
  | .regular => 0o100000
  | .block => 0o060000
  | .directory => 0o040000
  | .character => 0o020000
  | .fifo => 0o010000

/-- `S_IFDIR`. -/
def ifdir : ℕ := 0o040000

structure File where
  type : FileType
  permissions : ℕ
  permissions_lt : permissions < 2 ^ 12
  deriving DecidableEq

/-- `st_mode`. -/
def File.mode (f : File) : ℕ := f.type.bits ||| f.permissions

/-- The two names that every directory has for itself and for its parent. -/
def isDots (name : String) : Bool := name = "." || name = ".."

structure Tree where
  file : Path → Option File
  entries : Path → List String
  mem_entries : ∀ p name, isDots name = false →
    (name ∈ entries p ↔ (file (p ++ [name])).isSome)
  not_dots : ∀ p name, (file (p ++ [name])).isSome → isDots name = false
  parent : ∀ p name, (file (p ++ [name])).isSome → ∃ f ∈ file p, f.type = .directory
  bounded : ∃ depth, ∀ p, (file p).isSome → p.length ≤ depth

namespace Tree

variable {t t' : Tree} {path : Path}

theorem leaf_of_not_directory (h : ∃ f ∈ t.file path, f.type ≠ .directory) (name : String) :
    t.file (path ++ [name]) = none := by
  obtain ⟨f, hf, htype⟩ := h
  rw [← Option.not_isSome_iff_eq_none]
  intro hbelow
  obtain ⟨g, hg, hdir⟩ := t.parent path name hbelow
  exact htype (Option.mem_unique hf hg ▸ hdir)

theorem leaf_of_empty (h : ∀ name ∈ t.entries path, isDots name) (name : String) :
    t.file (path ++ [name]) = none := by
  rw [← Option.not_isSome_iff_eq_none]
  intro hbelow
  have hdots := t.not_dots path name hbelow
  have hmem := (t.mem_entries path name hdots).mpr hbelow
  rw [h name hmem] at hdots
  cases hdots

/-- Where there is no file there is none below. -/
theorem below_eq_none (h : t.file path = none) {q : Path} (hq : path <+: q) : t.file q = none := by
  obtain ⟨names, rfl⟩ := hq
  induction names using List.reverseRecOn with
  | nil => rwa [List.append_nil]
  | append_singleton names name ih =>
      rw [← Option.not_isSome_iff_eq_none, ← List.append_assoc]
      intro hbelow
      obtain ⟨f, hf, -⟩ := t.parent (path ++ names) name hbelow
      rw [ih] at hf
      cases hf

/-- The tree without the file at `path`, which has nothing below it. -/
def remove (t : Tree) (path : Path) (hleaf : ∀ name, t.file (path ++ [name]) = none) : Tree where
  file q := if q = path then none else t.file q
  entries q := (t.entries q).filter fun name => q ++ [name] ≠ path
  mem_entries := by
    intro p name hname
    rw [List.mem_filter, t.mem_entries p name hname]
    by_cases hp : p ++ [name] = path <;> simp [hp]
  not_dots := by
    intro p name h
    split_ifs at h with hp
    · cases h
    · exact t.not_dots p name h
  parent := by
    intro p name h
    split_ifs at h with hp
    · cases h
    · have hne : p ≠ path := by
        rintro rfl
        rw [hleaf name] at h
        cases h
      rw [if_neg hne]
      exact t.parent p name h
  bounded := by
    obtain ⟨depth, hdepth⟩ := t.bounded
    refine ⟨depth, fun p h => ?_⟩
    split_ifs at h with hp
    · cases h
    · exact hdepth p h

/-! ### System calls -/

/-- `opendir`, with what `readdir` answers; it is legal on directories. -/
def opendir (t : Tree) (path : Path) : Option (List String) :=
  if ∃ f ∈ t.file path, f.type = .directory then some (t.entries path) else none

/-- `unlink`; it is legal on what is no directory, and takes a link itself. -/
def unlink (t : Tree) (path : Path) : Option Tree :=
  if h : ∃ f ∈ t.file path, f.type ≠ .directory then some (t.remove path (leaf_of_not_directory h))
  else none

/-- `rmdir`; it is legal on empty directories. -/
def rmdir (t : Tree) (path : Path) : Option Tree :=
  if h : (∃ f ∈ t.file path, f.type = .directory) ∧ ∀ name ∈ t.entries path, isDots name then
    some (t.remove path (leaf_of_empty h.2))
  else none

theorem opendir_directory {f : File} (hf : t.file path = some f) (htype : f.type = .directory) :
    t.opendir path = some (t.entries path) := if_pos ⟨f, hf, htype⟩

theorem exists_unlink {f : File} (hf : t.file path = some f) (htype : f.type ≠ .directory) :
    ∃ t', t.unlink path = some t' := ⟨_, dif_pos ⟨f, hf, htype⟩⟩

theorem exists_rmdir {f : File} (hf : t.file path = some f) (htype : f.type = .directory)
    (hempty : ∀ name ∈ t.entries path, isDots name) : ∃ t', t.rmdir path = some t' :=
  ⟨_, dif_pos ⟨⟨f, hf, htype⟩, hempty⟩⟩

theorem unlink_eq_some (h : t.unlink path = some t') :
    (∃ f ∈ t.file path, f.type ≠ .directory) ∧
      ∀ q, t'.file q = if q = path then none else t.file q := by
  unfold unlink at h
  split_ifs at h with hlegal
  obtain rfl := Option.some.inj h
  exact ⟨hlegal, fun _ => rfl⟩

theorem rmdir_eq_some (h : t.rmdir path = some t') :
    (∃ f ∈ t.file path, f.type = .directory) ∧
      ∀ q, t'.file q = if q = path then none else t.file q := by
  unfold rmdir at h
  split_ifs at h with hlegal
  obtain rfl := Option.some.inj h
  exact ⟨hlegal.1, fun _ => rfl⟩

end Tree

/-! ### What changes -/

/-- Nothing has changed but that files at or below `path` may be gone. -/
def GoneWithin (path : Path) (t t' : Tree) : Prop :=
  ∀ q, t'.file q = t.file q ∨ (path <+: q ∧ t'.file q = none)

namespace GoneWithin

variable {path : Path} {t t' t'' : Tree}

theorem refl (path : Path) (t : Tree) : GoneWithin path t t := fun _ => Or.inl rfl

theorem trans (h : GoneWithin path t t') (h' : GoneWithin path t' t'') : GoneWithin path t t'' := by
  intro q
  rcases h' q with heq | hgone
  · rw [heq]
    exact h q
  · exact Or.inr hgone

theorem of_child {name : String} (h : GoneWithin (path ++ [name]) t t') :
    GoneWithin path t t' := by
  intro q
  rcases h q with heq | ⟨hbelow, hgone⟩
  · exact Or.inl heq
  · exact Or.inr ⟨(List.prefix_append path [name]).trans hbelow, hgone⟩

theorem of_remove (h : ∀ q, t'.file q = if q = path then none else t.file q) :
    GoneWithin path t t' := by
  intro q
  rw [h q]
  split_ifs with hq
  · exact Or.inr ⟨hq ▸ List.prefix_rfl, rfl⟩
  · exact Or.inl rfl

theorem file_eq_none (h : GoneWithin path t t') {q : Path} (hq : t.file q = none) :
    t'.file q = none := by
  rcases h q with heq | ⟨-, hgone⟩
  · exact heq.trans hq
  · exact hgone

theorem file_eq_some (h : GoneWithin path t t') {q : Path} {f : File} (hq : t'.file q = some f) :
    t.file q = some f := by
  rcases h q with heq | ⟨-, hgone⟩
  · exact heq.symm.trans hq
  · rw [hgone] at hq
    cases hq

end GoneWithin

/-! ### The bit of a directory -/

/-- Sockets and block devices have the bit of a directory as well. -/
theorem bits_and_ifdir (type : FileType) :
    type.bits &&& ifdir ≠ 0 ↔ type = .directory ∨ type = .socket ∨ type = .block := by
  cases type <;> simp [FileType.bits, ifdir]

theorem mode_and_ifdir (f : File) :
    f.mode &&& ifdir ≠ 0 ↔ f.type = .directory ∨ f.type = .socket ∨ f.type = .block := by
  have hlow : f.permissions &&& ifdir = 0 := by
    have hbit : f.permissions.testBit 14 = false :=
      Nat.testBit_lt_two_pow (f.permissions_lt.trans (by decide))
    rw [show ifdir = 2 ^ 14 from rfl, Nat.and_two_pow, hbit]
    rfl
  rw [File.mode, Nat.and_or_distrib_right, hlow, Nat.or_zero]
  exact bits_and_ifdir f.type

end FileTree
