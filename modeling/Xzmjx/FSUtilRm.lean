import Xzmjx.FileTree

/-!
# Removing a tree of files

`Rm` looks at its argument with `lstat`. What does not have the bit of a directory is
unlinked. Of what has it the entries are removed one after the other, each overwriting the
result of the one before it, and then the directory itself, which fails as long as an entry
is left. Any of the calls may be refused, by the permissions on a path or by the device.
-/
namespace Xzmjx.FSUtil
open FileTree

inductive Call where
  | lstat
  | opendir
  | unlink
  | rmdir
  deriving DecidableEq, Repr

section Calls

-- which calls are refused on which path
variable (refuses : Call → Path → Bool)

/-- `lstat` or `__lstat`; `none` is an error, in particular where there is no file. -/
def lstat (t : Tree) (path : Path) : Option File :=
  if refuses .lstat path then none else t.file path

def opendir (t : Tree) (path : Path) : Option (List String) :=
  if refuses .opendir path then none else t.opendir path

def sysUnlink (t : Tree) (path : Path) : Option Tree :=
  if refuses .unlink path then none else t.unlink path

def rmdir (t : Tree) (path : Path) : Option Tree :=
  if refuses .rmdir path then none else t.rmdir path

/-- `FSUtil::Unlink`. -/
def unlink (t : Tree) (filename : Path) (exist : Bool) : Bool × Tree :=
  if exist = false ∧ lstat refuses t filename = none then (true, t)
  else
    match sysUnlink refuses t filename with
    | none => (false, t)
    | some t => (true, t)

/-- The loop over the entries of `path`, with the call of `Rm` that it makes. -/
def rmEntries (rm : Tree → Path → Option (Bool × Tree)) (path : Path) :
    List String → Bool → Tree → Option (Bool × Tree)
  | [], ret, t => some (ret, t)
  | name :: names, ret, t =>
      if isDots name then rmEntries rm path names ret t
      else (rm t (path ++ [name])).bind fun r => rmEntries rm path names r.1 r.2

/-- What `Rm` does with a directory once its entries have been gone through. -/
def rmSelf (path : Path) (r : Bool × Tree) : Bool × Tree :=
  match rmdir refuses r.2 path with
  | none => (false, r.2)
  | some t => (r.1, t)

/-- `FSUtil::Rm`; `none` where the recursion goes deeper than `fuel`. -/
def rm : ℕ → Tree → Path → Option (Bool × Tree)
  | 0, _, _ => none
  | fuel + 1, t, path =>
      match lstat refuses t path with
      | none => some (true, t)
      | some st =>
          if st.mode &&& ifdir = 0 then some (unlink refuses t path false)
          else
            match opendir refuses t path with
            | none => some (false, t)
            | some dir => (rmEntries (rm fuel) path dir true t).map (rmSelf refuses path)

/-- `Rm` returns `r`. -/
def Returns (t : Tree) (path : Path) (r : Bool × Tree) : Prop :=
  ∃ n, ∀ fuel ≥ n, rm refuses fuel t path = some r

end Calls

variable {refuses : Call → Path → Bool} {t t' : Tree} {path : Path} {fuel : ℕ} {r : Bool × Tree}

/-! ### One call -/

theorem lstat_eq_some {f : File} (h : lstat refuses t path = some f) : t.file path = some f := by
  unfold lstat at h
  split_ifs at h
  exact h

theorem sysUnlink_eq_some (h : sysUnlink refuses t path = some t') :
    t.unlink path = some t' := by
  unfold sysUnlink at h
  split_ifs at h
  exact h

theorem rmdir_eq_some (h : rmdir refuses t path = some t') : t.rmdir path = some t' := by
  unfold rmdir at h
  split_ifs at h
  exact h

/-- A call that is not refused is that of the tree. -/
theorem calls_of_granted (hgranted : ∀ call p, refuses call p = false) :
    opendir refuses t path = t.opendir path ∧ sysUnlink refuses t path = t.unlink path ∧
      rmdir refuses t path = t.rmdir path := by
  simp [opendir, sysUnlink, rmdir, hgranted]

/-- `Unlink` of what `lstat` has just found. -/
theorem unlink_cases {f : File} (hf : lstat refuses t path = some f) :
    (sysUnlink refuses t path = none ∧ unlink refuses t path false = (false, t)) ∨
      ∃ t', sysUnlink refuses t path = some t' ∧ unlink refuses t path false = (true, t') := by
  have hne : ¬(false = false ∧ lstat refuses t path = none) := by simp [hf]
  rw [unlink, if_neg hne]
  cases h : sysUnlink refuses t path with
  | none => exact Or.inl ⟨rfl, rfl⟩
  | some t' => exact Or.inr ⟨t', rfl, rfl⟩

theorem rmSelf_cases (refuses : Call → Path → Bool) (path : Path) (s : Bool × Tree) :
    (rmdir refuses s.2 path = none ∧ rmSelf refuses path s = (false, s.2)) ∨
      ∃ t', rmdir refuses s.2 path = some t' ∧ rmSelf refuses path s = (s.1, t') := by
  unfold rmSelf
  cases h : rmdir refuses s.2 path with
  | none => exact Or.inl ⟨rfl, rfl⟩
  | some t' => exact Or.inr ⟨t', rfl, rfl⟩

/-- The four ways through `Rm`. -/
theorem rm_cases (h : rm refuses (fuel + 1) t path = some r) :
    (lstat refuses t path = none ∧ r = (true, t)) ∨
    ∃ f, lstat refuses t path = some f ∧
      ((f.mode &&& ifdir = 0 ∧ r = unlink refuses t path false) ∨
       (f.mode &&& ifdir ≠ 0 ∧ opendir refuses t path = none ∧ r = (false, t)) ∨
       (f.mode &&& ifdir ≠ 0 ∧ ∃ dir s, opendir refuses t path = some dir ∧
         rmEntries (rm refuses fuel) path dir true t = some s ∧ r = rmSelf refuses path s)) := by
  rw [rm] at h
  cases hf : lstat refuses t path with
  | none =>
      rw [hf] at h
      exact Or.inl ⟨rfl, (Option.some.inj h).symm⟩
  | some f =>
      rw [hf] at h
      refine Or.inr ⟨f, rfl, ?_⟩
      dsimp only at h
      split_ifs at h with hmode
      · exact Or.inl ⟨hmode, (Option.some.inj h).symm⟩
      · cases hdir : opendir refuses t path with
        | none =>
            rw [hdir] at h
            exact Or.inr (Or.inl ⟨hmode, rfl, (Option.some.inj h).symm⟩)
        | some dir =>
            rw [hdir] at h
            obtain ⟨s, hs, hr⟩ := Option.map_eq_some_iff.mp h
            exact Or.inr (Or.inr ⟨hmode, dir, s, rfl, hs, hr.symm⟩)

/-! ### The loop over the entries -/

section Entries

variable {call : Tree → Path → Option (Bool × Tree)} {names : List String} {ret : Bool}

/-- What each call on an entry does, and what can be done in several steps, the loop does. -/
theorem rmEntries_induction (R : Tree → Tree → Prop) (hrefl : ∀ t, R t t)
    (htrans : ∀ {t t' t''}, R t t' → R t' t'' → R t t'')
    (hcall : ∀ t name s, call t (path ++ [name]) = some s → R t s.2)
    (h : rmEntries call path names ret t = some r) : R t r.2 := by
  induction names generalizing ret t with
  | nil =>
      obtain rfl := Option.some.inj h
      exact hrefl t
  | cons name names ih =>
      unfold rmEntries at h
      split_ifs at h
      · exact ih h
      · obtain ⟨s, hs, hrest⟩ := Option.bind_eq_some_iff.mp h
        exact htrans (hcall t name s hs) (ih hrest)

/-- The loop ends when each call on an entry does, on the trees that have `P`. -/
theorem exists_rmEntries (P : Tree → Prop)
    (hcall : ∀ t name, P t → ∃ s, call t (path ++ [name]) = some s ∧ P s.2) (ht : P t)
    (names : List String) (ret : Bool) : ∃ r, rmEntries call path names ret t = some r := by
  induction names generalizing ret t with
  | nil => exact ⟨_, rfl⟩
  | cons name names ih =>
      unfold rmEntries
      split_ifs
      · exact ih ht ret
      · obtain ⟨s, hs, hP⟩ := hcall t name ht
        rw [hs]
        exact ih hP s.1

theorem goneWithin_rmEntries (hcall : ∀ t p s, call t p = some s → GoneWithin p t s.2)
    (h : rmEntries call path names ret t = some r) : GoneWithin path t r.2 :=
  rmEntries_induction (GoneWithin path) (GoneWithin.refl path) GoneWithin.trans
    (fun t _ s hs => (hcall t _ s hs).of_child) h

/-- A call that answers whenever another does, and the same, makes the loop do so. -/
theorem rmEntries_mono {call' : Tree → Path → Option (Bool × Tree)}
    (hcall : ∀ t p s, call t p = some s → call' t p = some s)
    (h : rmEntries call path names ret t = some r) : rmEntries call' path names ret t = some r := by
  induction names generalizing ret t with
  | nil => exact h
  | cons name names ih =>
      unfold rmEntries at h ⊢
      split_ifs at h ⊢
      · exact ih h
      · obtain ⟨s, hs, hrest⟩ := Option.bind_eq_some_iff.mp h
        rw [hcall t _ s hs]
        exact ih hrest

end Entries

/-! ### More fuel -/

theorem rm_succ (h : rm refuses fuel t path = some r) :
    rm refuses (fuel + 1) t path = some r := by
  induction fuel generalizing t path r with
  | zero => cases h
  | succ fuel ih =>
      rw [rm]
      rcases rm_cases h with ⟨hf, rfl⟩ | ⟨f, hf, hrest⟩
      · rw [hf]
      · rw [hf]
        dsimp only
        rcases hrest with ⟨hmode, rfl⟩ | ⟨hmode, hdir, rfl⟩ | ⟨hmode, dir, s, hdir, hs, rfl⟩
        · rw [if_pos hmode]
        · rw [if_neg hmode, hdir]
        · rw [if_neg hmode, hdir]
          dsimp only
          rw [rmEntries_mono (fun _ _ _ => ih) hs]
          rfl

theorem rm_mono {n : ℕ} (h : rm refuses n t path = some r) (hfuel : n ≤ fuel) :
    rm refuses fuel t path = some r := by
  induction hfuel with
  | refl => exact h
  | step _ ih => exact rm_succ ih

theorem returns_of_rm (h : rm refuses fuel t path = some r) : Returns refuses t path r :=
  ⟨fuel, fun _ => rm_mono h⟩

theorem Returns.exists_rm (h : Returns refuses t path r) :
    ∃ fuel, rm refuses fuel t path = some r := by
  obtain ⟨n, hn⟩ := h
  exact ⟨n, hn n le_rfl⟩

theorem Returns.unique {s : Bool × Tree} (h : Returns refuses t path r)
    (h' : Returns refuses t path s) : r = s := by
  obtain ⟨n, hn⟩ := h
  obtain ⟨m, hm⟩ := h'
  exact Option.some.inj ((hn (max n m) (le_max_left n m)).symm.trans (hm _ (le_max_right n m)))

/-! ### What a run leaves alone -/

/-- The types that have the bit of a directory and are none. -/
def Mistaken (f : File) : Prop := f.type = .socket ∨ f.type = .block

/-- Files are gone at or below `path` only, and no mistaken one is. -/
def Changes (path : Path) (t t' : Tree) : Prop :=
  GoneWithin path t t' ∧ ∀ q f, t.file q = some f → Mistaken f → t'.file q = some f

theorem Changes.refl (path : Path) (t : Tree) : Changes path t t :=
  ⟨GoneWithin.refl path t, fun _ _ hq _ => hq⟩

theorem Changes.trans {t'' : Tree} (h : Changes path t t') (h' : Changes path t' t'') :
    Changes path t t'' :=
  ⟨h.1.trans h'.1, fun q f hq hf => h'.2 q f (h.2 q f hq hf) hf⟩

theorem Changes.of_child {name : String} (h : Changes (path ++ [name]) t t') :
    Changes path t t' := ⟨h.1.of_child, h.2⟩

theorem changes_of_remove {f : File} (hf : t.file path = some f) (hplain : ¬Mistaken f)
    (h : ∀ q, t'.file q = if q = path then none else t.file q) : Changes path t t' := by
  refine ⟨GoneWithin.of_remove h, fun q g hq hg => ?_⟩
  rw [h q, if_neg, hq]
  rintro rfl
  exact hplain (Option.some.inj (hf.symm.trans hq) ▸ hg)

theorem changes_unlink {f : File} (hf : lstat refuses t path = some f)
    (hmode : f.mode &&& ifdir = 0) : Changes path t (unlink refuses t path false).2 := by
  rcases unlink_cases hf with ⟨-, heq⟩ | ⟨t', ht', heq⟩
  · rw [heq]
    exact Changes.refl path t
  · rw [heq]
    obtain ⟨-, hfile⟩ := Tree.unlink_eq_some (sysUnlink_eq_some ht')
    refine changes_of_remove (lstat_eq_some hf) (fun hbit => ?_) hfile
    exact (mode_and_ifdir f).mpr (Or.inr hbit) hmode

theorem changes_rmSelf (path : Path) (s : Bool × Tree) :
    Changes path s.2 (rmSelf refuses path s).2 := by
  rcases rmSelf_cases refuses path s with ⟨-, heq⟩ | ⟨t', ht', heq⟩
  · rw [heq]
    exact Changes.refl path s.2
  · rw [heq]
    obtain ⟨⟨f, hf, hdir⟩, hfile⟩ := Tree.rmdir_eq_some (rmdir_eq_some ht')
    refine changes_of_remove hf (fun hbit => ?_) hfile
    rcases hbit with hbit | hbit <;> cases hdir.symm.trans hbit

/-- A run changes nothing outside of `path`, and it leaves sockets and block devices. -/
theorem changes_rm (h : rm refuses fuel t path = some r) : Changes path t r.2 := by
  induction fuel generalizing t path r with
  | zero => cases h
  | succ fuel ih =>
      rcases rm_cases h with ⟨-, rfl⟩ | ⟨f, hf, hrest⟩
      · exact Changes.refl path t
      · rcases hrest with ⟨hmode, rfl⟩ | ⟨-, -, rfl⟩ | ⟨-, dir, s, -, hs, rfl⟩
        · exact changes_unlink hf hmode
        · exact Changes.refl path t
        · have hentries : Changes path t s.2 :=
            rmEntries_induction (Changes path) (Changes.refl path) Changes.trans
              (fun _ _ _ hcall => (ih hcall).of_child) hs
          exact hentries.trans (changes_rmSelf path s)

/-! ### Termination -/

theorem exists_rm (refuses : Call → Path → Bool) (fuel : ℕ) (path : Path) {depth : ℕ}
    (hdepth : ∀ q, (t.file q).isSome → q.length ≤ depth)
    (hpos : 0 < fuel) (hfuel : depth + 2 ≤ path.length + fuel) :
    ∃ r, rm refuses fuel t path = some r := by
  induction fuel generalizing t path with
  | zero => omega
  | succ fuel ih =>
      rw [rm]
      cases hf : lstat refuses t path with
      | none => exact ⟨_, rfl⟩
      | some f =>
          dsimp only
          split_ifs
          · exact ⟨_, rfl⟩
          · cases opendir refuses t path with
            | none => exact ⟨_, rfl⟩
            | some dir =>
                have hlen := hdepth path (by rw [lstat_eq_some hf]; rfl)
                have hcall : ∀ (t : Tree) (name : String),
                    (∀ q, (t.file q).isSome → q.length ≤ depth) →
                    ∃ s, rm refuses fuel t (path ++ [name]) = some s ∧
                      ∀ q, (s.2.file q).isSome → q.length ≤ depth := by
                  intro t name ht
                  have hlen' : depth + 2 ≤ (path ++ [name]).length + fuel := by
                    rw [List.length_append, List.length_singleton]
                    omega
                  obtain ⟨s, hs⟩ := ih (path ++ [name]) ht (by omega) hlen'
                  refine ⟨s, hs, fun q hq => ?_⟩
                  obtain ⟨g, hg⟩ := Option.isSome_iff_exists.mp hq
                  exact ht q (by rw [(changes_rm hs).1.file_eq_some hg]; rfl)
                obtain ⟨s, hs⟩ := exists_rmEntries _ hcall hdepth dir true
                dsimp only
                rw [hs]
                exact ⟨_, rfl⟩

/-- `Rm` returns, whatever is refused. -/
theorem exists_returns (refuses : Call → Path → Bool) (t : Tree) (path : Path) :
    ∃ r, Returns refuses t path r := by
  obtain ⟨depth, hdepth⟩ := t.bounded
  obtain ⟨r, hr⟩ := exists_rm refuses (depth + 2) path hdepth (by omega) (by omega)
  exact ⟨r, returns_of_rm hr⟩

/-! ### Success -/

/-- No file at or below `path` has the bit of a directory by mistake. -/
def Plain (path : Path) (t : Tree) : Prop := ∀ q f, path <+: q → t.file q = some f → ¬Mistaken f

theorem Plain.of_goneWithin (h : Plain path t) {p : Path} (hgone : GoneWithin p t t') :
    Plain path t' := fun q f hq hf => h q f hq (hgone.file_eq_some hf)

theorem unlink_honest {f : File} (hf : lstat refuses t path = some f)
    (h : unlink refuses t path false = (true, t')) : t'.file path = none := by
  rcases unlink_cases hf with ⟨-, heq⟩ | ⟨u, hu, heq⟩
  · rw [heq] at h
    cases h
  · rw [heq] at h
    obtain ⟨-, rfl⟩ := Prod.mk.inj h
    obtain ⟨-, hfile⟩ := Tree.unlink_eq_some (sysUnlink_eq_some hu)
    rw [hfile, if_pos rfl]

theorem rmSelf_honest {s : Bool × Tree} (h : rmSelf refuses path s = (true, t')) :
    t'.file path = none := by
  rcases rmSelf_cases refuses path s with ⟨-, heq⟩ | ⟨u, hu, heq⟩
  · rw [heq] at h
    cases h
  · rw [heq] at h
    obtain ⟨-, rfl⟩ := Prod.mk.inj h
    obtain ⟨-, hfile⟩ := Tree.rmdir_eq_some (rmdir_eq_some hu)
    rw [hfile, if_pos rfl]

/-- `Rm` says that it has removed its argument only where that is so. -/
theorem rm_honest (hlstat : refuses .lstat path → t.file path = none)
    (h : rm refuses fuel t path = some (true, t')) : t'.file path = none := by
  cases fuel with
  | zero => cases h
  | succ fuel =>
      rcases rm_cases h with ⟨hf, heq⟩ | ⟨f, hf, hrest⟩
      · obtain ⟨-, rfl⟩ := Prod.mk.inj heq
        unfold lstat at hf
        split_ifs at hf with hrefused
        · exact hlstat hrefused
        · exact hf
      · rcases hrest with ⟨-, heq⟩ | ⟨-, -, heq⟩ | ⟨-, dir, s, -, -, heq⟩
        · exact unlink_honest hf heq.symm
        · cases heq
        · exact rmSelf_honest heq.symm

/-- When each entry is removed, the loop ends with success and all of them are gone. -/
theorem rmEntries_clean {call : Tree → Path → Option (Bool × Tree)} {names : List String}
    (hcall : ∀ t p s, call t p = some s → GoneWithin p t s.2)
    (hclean : ∀ t p s, Plain p t → call t p = some s → s.1 = true ∧ s.2.file p = none)
    (hplain : Plain path t) (h : rmEntries call path names true t = some r) :
    r.1 = true ∧ ∀ name ∈ names, isDots name = false → r.2.file (path ++ [name]) = none := by
  induction names generalizing t with
  | nil =>
      obtain rfl := Option.some.inj h
      exact ⟨rfl, by simp⟩
  | cons name names ih =>
      unfold rmEntries at h
      split_ifs at h with hdots
      · obtain ⟨hret, hgone⟩ := ih hplain h
        refine ⟨hret, List.forall_mem_cons.mpr ⟨fun hname => ?_, hgone⟩⟩
        rw [hdots] at hname
        cases hname
      · obtain ⟨⟨ret, u⟩, hs, hrest⟩ := Option.bind_eq_some_iff.mp h
        have hchild : Plain (path ++ [name]) t := fun q f hq =>
          hplain q f ((List.prefix_append path [name]).trans hq)
        obtain ⟨rfl, hname⟩ := hclean t _ _ hchild hs
        obtain ⟨hret, hgone⟩ := ih (hplain.of_goneWithin (hcall t _ _ hs)) hrest
        refine ⟨hret, List.forall_mem_cons.mpr ⟨fun _ => ?_, hgone⟩⟩
        exact (goneWithin_rmEntries hcall hrest).file_eq_none hname

/-- The loop leaves the directory itself. -/
theorem file_rmEntries {call : Tree → Path → Option (Bool × Tree)} {names : List String}
    {ret : Bool} (hcall : ∀ t p s, call t p = some s → GoneWithin p t s.2)
    (h : rmEntries call path names ret t = some r) : r.2.file path = t.file path := by
  refine rmEntries_induction (fun t t' => t'.file path = t.file path) (fun _ => rfl)
    (fun h h' => h'.trans h) (fun t name s hs => ?_) h
  rcases hcall t _ s hs path with heq | ⟨hbelow, -⟩
  · exact heq
  · have := hbelow.length_le
    rw [List.length_append, List.length_singleton] at this
    omega

/-- A directory whose entries have all been removed can be removed. -/
theorem exists_rmdir_of_clean {f : File} {s : Tree} (hgone : GoneWithin path t s)
    (hf : s.file path = some f) (htype : f.type = .directory)
    (hentries : ∀ name ∈ t.entries path, isDots name = false → s.file (path ++ [name]) = none) :
    ∃ t', s.rmdir path = some t' := by
  refine Tree.exists_rmdir hf htype fun name hname => ?_
  by_contra hdots
  rw [Bool.not_eq_true] at hdots
  have hleft := (s.mem_entries path name hdots).mp hname
  obtain ⟨g, hg⟩ := Option.isSome_iff_exists.mp hleft
  have hmem : name ∈ t.entries path :=
    (t.mem_entries path name hdots).mpr (by rw [hgone.file_eq_some hg]; rfl)
  rw [hentries name hmem hdots] at hg
  cases hg

theorem unlink_granted (hgranted : ∀ call p, refuses call p = false) {f : File}
    (hf : lstat refuses t path = some f) (htype : f.type ≠ .directory) :
    (unlink refuses t path false).1 = true := by
  obtain ⟨u, hu⟩ := Tree.exists_unlink (lstat_eq_some hf) htype
  rcases unlink_cases hf with ⟨hnone, -⟩ | ⟨u', -, heq⟩
  · rw [(calls_of_granted hgranted).2.1, hu] at hnone
    cases hnone
  · rw [heq]

theorem rmSelf_granted (hgranted : ∀ call p, refuses call p = false) {s : Bool × Tree}
    (hempty : ∃ t', s.2.rmdir path = some t') : (rmSelf refuses path s).1 = s.1 := by
  obtain ⟨u, hu⟩ := hempty
  rcases rmSelf_cases refuses path s with ⟨hnone, -⟩ | ⟨u', -, heq⟩
  · rw [(calls_of_granted hgranted).2.2, hu] at hnone
    cases hnone
  · rw [heq]

/-- Where nothing is refused and nothing is mistaken for a directory `Rm` succeeds. -/
theorem rm_succeeds (hgranted : ∀ call p, refuses call p = false) (hplain : Plain path t)
    (h : rm refuses fuel t path = some r) : r.1 = true := by
  induction fuel generalizing t path r with
  | zero => cases h
  | succ fuel ih =>
      rcases rm_cases h with ⟨-, rfl⟩ | ⟨f, hf, hrest⟩
      · rfl
      · have hfile := lstat_eq_some hf
        have hmistaken := hplain path f List.prefix_rfl hfile
        rcases hrest with ⟨hmode, rfl⟩ | ⟨hmode, hdir, -⟩ | ⟨hmode, dir, s, hdir, hs, rfl⟩
        · exact unlink_granted hgranted hf fun htype =>
            (mode_and_ifdir f).mpr (Or.inl htype) hmode
        · have htype := ((mode_and_ifdir f).mp hmode).resolve_right hmistaken
          rw [(calls_of_granted hgranted).1, Tree.opendir_directory hfile htype] at hdir
          cases hdir
        · have htype := ((mode_and_ifdir f).mp hmode).resolve_right hmistaken
          rw [(calls_of_granted hgranted).1, Tree.opendir_directory hfile htype] at hdir
          obtain rfl := Option.some.inj hdir
          have hwithin : ∀ t p s, rm refuses fuel t p = some s → GoneWithin p t s.2 :=
            fun t p s hcall => (changes_rm hcall).1
          have hclean : ∀ t p s, Plain p t → rm refuses fuel t p = some s →
              s.1 = true ∧ s.2.file p = none := by
            rintro t p ⟨ret, u⟩ hp hcall
            obtain rfl : ret = true := ih hp hcall
            refine ⟨rfl, rm_honest (fun hrefused => ?_) hcall⟩
            rw [hgranted] at hrefused
            cases hrefused
          obtain ⟨hret, hgone⟩ := rmEntries_clean hwithin hclean hplain hs
          have hempty := exists_rmdir_of_clean (goneWithin_rmEntries hwithin hs)
            ((file_rmEntries hwithin hs).trans hfile) htype hgone
          rw [rmSelf_granted hgranted hempty, hret]

/-! ### The whole tree -/

/-- `Rm` is to remove what is at and below `path` and nothing else, and it is to say so only
when it has removed it. -/
structure RemovesTree (refuses : Call → Path → Bool) (t : Tree) (path : Path) : Prop where
  cleans : (∀ call p, refuses call p = false) → ∃ t', Returns refuses t path (true, t') ∧
    ∀ q, t'.file q = if path <+: q then none else t.file q
  honest : ∀ t', Returns refuses t path (true, t') → t'.file path = none

theorem file_of_changes (h : Changes path t t') (hgone : t'.file path = none) (q : Path) :
    t'.file q = if path <+: q then none else t.file q := by
  split_ifs with hq
  · exact t'.below_eq_none hgone hq
  · exact (h.1 q).resolve_right fun hbelow => hq hbelow.1

/-- `Rm` removes a tree exactly when no socket and no block device is in it, unless something
is refused, and what it says is true exactly when `lstat` is not refused on a file. -/
theorem removesTree_iff (refuses : Call → Path → Bool) (t : Tree) (path : Path) :
    RemovesTree refuses t path ↔
      ((∀ call p, refuses call p = false) → ∀ q f, path <+: q → t.file q = some f →
        f.type ≠ .socket ∧ f.type ≠ .block) ∧
      (refuses .lstat path = true → t.file path = none) := by
  constructor
  · intro h
    constructor
    · intro hgranted q f hq hf
      obtain ⟨t', hreturns, hfile⟩ := h.cleans hgranted
      obtain ⟨fuel, hrm⟩ := hreturns.exists_rm
      rw [← not_or]
      intro hmistaken
      have hkept := (changes_rm hrm).2 q f hf hmistaken
      rw [hfile q, if_pos hq] at hkept
      cases hkept
    · intro hrefused
      apply h.honest
      have hrm : rm refuses 1 t path = some (true, t) := by
        rw [rm, lstat, if_pos hrefused]
      exact returns_of_rm hrm
  · rintro ⟨hplain, hlstat⟩
    constructor
    · intro hgranted
      obtain ⟨⟨ret, t'⟩, hreturns⟩ := exists_returns refuses t path
      obtain ⟨fuel, hrm⟩ := hreturns.exists_rm
      have hp : Plain path t := fun q f hq hf => not_or.mpr (hplain hgranted q f hq hf)
      obtain rfl : ret = true := rm_succeeds hgranted hp hrm
      exact ⟨t', hreturns, file_of_changes (changes_rm hrm) (rm_honest hlstat hrm)⟩
    · intro t' hreturns
      obtain ⟨fuel, hrm⟩ := hreturns.exists_rm
      exact rm_honest hlstat hrm

/-- A directory with one socket in it. -/
def socketTree : Tree where
  file q :=
    if q = [] then some ⟨.directory, 0o755, by decide⟩
    else if q = ["s"] then some ⟨.socket, 0o755, by decide⟩
    else none
  entries q := if q = [] then [".", "..", "s"] else []
  mem_entries := by
    intro p name hname
    cases p with
    | nil =>
        have hdots : name ≠ "." ∧ name ≠ ".." := by simpa [isDots] using hname
        simp [hdots]
    | cons c p => simp
  not_dots := by
    intro p name h
    cases p with
    | nil =>
        have hname : name = "s" := by
          by_contra hne
          simp [hne] at h
        rw [hname]
        decide
    | cons c p => simp at h
  parent := by
    intro p name h
    cases p with
    | nil => exact ⟨_, rfl, rfl⟩
    | cons c p => simp at h
  bounded := by
    refine ⟨1, fun p h => ?_⟩
    split_ifs at h with hroot hsocket
    · simp [hroot]
    · simp [hsocket]
    · cases h

/-- The bit of a directory is in the type of a socket too: `opendir` fails on it, and the socket
and its directory are left. -/
theorem socket_not_removed :
    ¬RemovesTree (fun _ _ => false) socketTree [] ∧
      (rm (fun _ _ => false) 2 socketTree []).map Prod.fst = some false := by
  refine ⟨fun h => ?_, by decide⟩
  obtain ⟨t', hreturns, hfile⟩ := h.cleans fun _ _ => rfl
  obtain ⟨fuel, hrm⟩ := hreturns.exists_rm
  have hkept := (changes_rm hrm).2 ["s"] ⟨.socket, 0o755, by decide⟩ rfl (Or.inl rfl)
  have hgone := hfile ["s"]
  rw [if_pos (List.nil_prefix)] at hgone
  cases hkept.symm.trans hgone

end Xzmjx.FSUtil
