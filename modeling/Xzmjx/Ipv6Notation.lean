import Mathlib.Data.List.Basic
import Xzmjx.Numerals

/-!
# The text of IPv6 addresses

Eight groups of hexadecimal digits with colons between them, of which one run of zero groups
may be written as two colons, and the parser of the C library for that notation. The form that
ends in a dotted quad is left out.
-/
namespace Ipv6Notation
open Numerals

abbrev Text := List UInt8

def colon : UInt8 := 58

/-! ### Notation -/

/-- A group as it is written: at most four hexadecimal digits. -/
def IsGroup (g : Text) : Prop := 1 ≤ g.length ∧ g.length ≤ 4 ∧ ∀ c ∈ g, (digitValue c).isSome

/-- Groups with colons between them. -/
def joined : List Text → Text
  | [] => []
  | [g] => g
  | g :: h :: gs => g ++ colon :: joined (h :: gs)

/-- The notation of an address: eight groups, or fewer around one pair of colons. -/
inductive Valid : Text → Prop
  | full {gs : List Text} (hgs : ∀ g ∈ gs, IsGroup g) (hlen : gs.length = 8) : Valid (joined gs)
  | compressed {gs hs : List Text} (hgs : ∀ g ∈ gs, IsGroup g) (hhs : ∀ h ∈ hs, IsGroup h)
      (hlen : gs.length + hs.length ≤ 7) : Valid (joined gs ++ [colon, colon] ++ joined hs)

/-! ### The parser -/

/-- What the loop has read: the groups, where two colons stood, and the digits of a group. -/
structure Scan where
  groups : List ℕ
  colonp : Option ℕ
  xdigits_seen : ℕ
  val : ℕ
  deriving DecidableEq, Repr

/-- The loop over the characters. -/
def scan : Text → Scan → Option Scan
  | [], s => some s
  | ch :: src, s =>
      match digitValue ch with
      | some digit =>
          if s.xdigits_seen = 4 then none
          else if 0xffff < s.val * 16 + digit then none
          else scan src ⟨s.groups, s.colonp, s.xdigits_seen + 1, s.val * 16 + digit⟩
      | none =>
          if ch = colon then
            if s.xdigits_seen = 0 then
              if s.colonp.isSome then none
              else scan src ⟨s.groups, some s.groups.length, 0, s.val⟩
            else if src = [] then none
            else if 8 < s.groups.length + 1 then none
            else scan src ⟨s.groups ++ [s.val], s.colonp, 0, 0⟩
          else none

/-- Two colons stand for the groups that are missing, of which there is at least one. -/
def expand (groups : List ℕ) : Option ℕ → Option (List ℕ)
  | some k =>
      if groups.length = 8 then none
      else some (groups.take k ++ List.replicate (8 - groups.length) 0 ++ groups.drop k)
  | none => if groups.length = 8 then some groups else none

/-- What follows on the loop. -/
def finish (s : Scan) : Option (List ℕ) :=
  if 0 < s.xdigits_seen then
    if 8 < s.groups.length + 1 then none else expand (s.groups ++ [s.val]) s.colonp
  else expand s.groups s.colonp

/-- The groups of an address. A colon in front has to be one of two. -/
def parse : Text → Option (List ℕ)
  | [] => none
  | ch :: src =>
      if ch = colon then
        if src.head? = some colon then (scan src ⟨[], none, 0, 0⟩).bind finish else none
      else (scan (ch :: src) ⟨[], none, 0, 0⟩).bind finish

/-! ### Groups -/

/-- A group in the shortest form. -/
def hex (v : ℕ) : Text := numeral 16 v

theorem isGroup_hex {v : ℕ} (h : v < 65536) : IsGroup (hex v) := by
  refine ⟨List.length_pos_iff.mpr numeral_ne_nil, length_numeral_le (by decide) (by decide) h, ?_⟩
  intro c hc
  obtain ⟨d, hd, rfl⟩ := exists_digit_of_mem (by decide) hc
  rw [digitValue_digit hd]
  rfl

theorem digitValue_colon : digitValue colon = none := by
  decide

theorem colon_not_mem_group {g : Text} (h : IsGroup g) : colon ∉ g := by
  intro hc
  have hsome := h.2.2 colon hc
  rw [digitValue_colon] at hsome
  cases hsome

/-- Groups with a colon after each. -/
def closed (ws : List ℕ) : Text := ws.flatMap fun w => hex w ++ [colon]

/-- Groups with colons between them, each in the shortest form. -/
def groupsText (ws : List ℕ) : Text := joined (ws.map hex)

theorem groupsText_concat (ws : List ℕ) (w : ℕ) :
    groupsText (ws ++ [w]) = closed ws ++ hex w := by
  induction ws with
  | nil => rfl
  | cons v ws ih =>
      have hne : ∃ g gs, (ws ++ [w]).map hex = g :: gs := by
        cases ws with
        | nil => exact ⟨_, _, rfl⟩
        | cons u ws => exact ⟨_, _, rfl⟩
      obtain ⟨g, gs, hgs⟩ := hne
      rw [groupsText, hgs] at ih
      rw [groupsText, List.cons_append, List.map_cons, hgs, joined, ih]
      simp [closed]

theorem groupsText_cons (v : ℕ) (ws : List ℕ) :
    groupsText (v :: ws) = hex v ++ ws.flatMap fun w => colon :: hex w := by
  induction ws generalizing v with
  | nil => exact (List.append_nil (hex v)).symm
  | cons w ws ih =>
      show hex v ++ colon :: groupsText (w :: ws) = _
      rw [ih, List.flatMap_cons]
      rfl

/-! ### Reading back -/

section Scan
variable {gs : List ℕ} {k : Option ℕ}

/-- The digits of a group make up its value. -/
theorem scan_hex {v : ℕ} {j : ℕ} (hj : 0 < j) (hj' : j ≤ 4) (hv : v < 16 ^ j) (rest : Text) :
    scan (hex v ++ rest) ⟨gs, k, 0, 0⟩ = scan rest ⟨gs, k, (hex v).length, v⟩ := by
  induction j, hj using Nat.le_induction generalizing v rest with
  | base =>
      have hlt : v < 16 := by simpa using hv
      rw [hex, numeral_of_lt hlt, List.singleton_append, scan, digitValue_digit hlt]
      dsimp only
      rw [show 0 * 16 + v = v by omega, if_neg (by decide), if_neg (by omega)]
      rfl
  | succ j hj ih =>
      rcases Nat.lt_or_ge v 16 with hlt | hge
      · exact ih (by omega) (hlt.trans_le (Nat.le_self_pow (by omega) 16)) rest
      · have hdiv : v / 16 < 16 ^ j := by
          rw [Nat.div_lt_iff_lt_mul (by decide)]
          rwa [Nat.pow_succ] at hv
        have hlen : (hex (v / 16)).length ≤ j := length_numeral_le (by decide) hj hdiv
        have hbound : v < 65536 := hv.trans_le (Nat.pow_le_pow_right (by decide) hj')
        have hsum : v / 16 * 16 + v % 16 = v := by omega
        rw [hex, numeral_of_le (by decide) hge, List.append_assoc, List.singleton_append,
          ← hex, ih (by omega) hdiv, scan, digitValue_digit (Nat.mod_lt v (by decide))]
        dsimp only
        rw [hsum, if_neg (by omega), if_neg (by omega), List.length_append]
        rfl

theorem scan_group {v : ℕ} (hv : v < 65536) (rest : Text) :
    scan (hex v ++ rest) ⟨gs, k, 0, 0⟩ = scan rest ⟨gs, k, (hex v).length, v⟩ :=
  scan_hex (j := 4) (by decide) le_rfl hv rest

theorem length_hex_ne (v : ℕ) : (hex v).length ≠ 0 :=
  fun h => numeral_ne_nil (List.length_eq_zero_iff.mp h)

/-- Groups with a colon after each are taken whole. -/
theorem scan_closed {ws : List ℕ} (hws : ∀ w ∈ ws, w < 65536) (hlen : gs.length + ws.length ≤ 8)
    {rest : Text} (hrest : rest ≠ []) :
    scan (closed ws ++ rest) ⟨gs, k, 0, 0⟩ = scan rest ⟨gs ++ ws, k, 0, 0⟩ := by
  induction ws generalizing gs with
  | nil => rw [List.append_nil]; rfl
  | cons w ws ih =>
      have hw : w < 65536 := hws w List.mem_cons_self
      have hws' : ∀ v ∈ ws, v < 65536 := fun v hv => hws v (List.mem_cons_of_mem w hv)
      rw [List.length_cons] at hlen
      have hlen' : (gs ++ [w]).length + ws.length ≤ 8 := by
        rw [List.length_append, List.length_singleton]
        omega
      have hmore : closed ws ++ rest ≠ [] := fun h => hrest (List.append_eq_nil_iff.mp h).2
      have hsplit : closed (w :: ws) ++ rest = hex w ++ colon :: (closed ws ++ rest) := by
        simp [closed]
      rw [hsplit, scan_group hw, scan, digitValue_colon]
      dsimp only
      rw [if_pos rfl, if_neg (length_hex_ne w), if_neg hmore, if_neg (by omega), ih hws' hlen',
        List.append_assoc]
      rfl

/-- The groups at the end. -/
theorem scan_groupsText {ws : List ℕ} (hws : ∀ w ∈ ws, w < 65536)
    (hlen : gs.length + ws.length ≤ 8) :
    (scan (groupsText ws) ⟨gs, k, 0, 0⟩).bind finish = expand (gs ++ ws) k := by
  rcases List.eq_nil_or_concat' ws with rfl | ⟨us, u, rfl⟩
  · rw [List.append_nil]
    rfl
  · have hu : u < 65536 := hws u (List.mem_append_right us List.mem_cons_self)
    have hus : ∀ v ∈ us, v < 65536 := fun v hv => hws v (List.mem_append_left [u] hv)
    rw [List.length_append, List.length_singleton] at hlen
    have hroom : ¬8 < (gs ++ us).length + 1 := by
      rw [List.length_append]
      omega
    have hne : hex u ≠ [] := numeral_ne_nil
    have hend := @scan_group (gs ++ us) k u hu []
    rw [List.append_nil] at hend
    rw [groupsText_concat, scan_closed hus (by omega) hne, hend, scan, Option.bind_some, finish,
      if_pos (Nat.pos_of_ne_zero (length_hex_ne u)), if_neg hroom, List.append_assoc]

end Scan

section Parse
variable {us ws : List ℕ}

/-- A text that begins with a group has no colon in front. -/
theorem parse_of_group {g rest : Text} (hg : IsGroup g) :
    parse (g ++ rest) = (scan (g ++ rest) ⟨[], none, 0, 0⟩).bind finish := by
  cases g with
  | nil => exact absurd hg.1 (by decide)
  | cons c g =>
      have hc : c ≠ colon := by
        rintro rfl
        exact colon_not_mem_group hg List.mem_cons_self
      rw [List.cons_append, parse, if_neg hc]

/-- Whether a text begins with a group shows when it is cut behind the first one. -/
theorem parse_groups {vs : List ℕ} {v : ℕ} (hvs : ∀ w ∈ vs ++ [v], w < 65536) (rest : Text) :
    parse (closed vs ++ hex v ++ rest) =
      (scan (closed vs ++ hex v ++ rest) ⟨[], none, 0, 0⟩).bind finish := by
  cases vs with
  | nil => exact parse_of_group (isGroup_hex (hvs v List.mem_cons_self))
  | cons w vs =>
      have hw : IsGroup (hex w) := isGroup_hex (hvs w List.mem_cons_self)
      have hsplit : closed (w :: vs) ++ hex v ++ rest =
          hex w ++ ([colon] ++ closed vs ++ hex v ++ rest) := by
        simp [closed]
      rw [hsplit]
      exact parse_of_group hw

theorem parse_full (hws : ∀ w ∈ ws, w < 65536) (hlen : ws.length = 8) :
    parse (groupsText ws) = some ws := by
  have hscan := @scan_groupsText [] none ws hws (by rw [hlen]; decide)
  rw [expand, List.nil_append, if_pos hlen] at hscan
  rcases List.eq_nil_or_concat' ws with rfl | ⟨vs, v, rfl⟩
  · cases hlen
  · have hparse := parse_groups hws []
    rw [List.append_nil, ← groupsText_concat] at hparse
    rw [hparse, hscan]

theorem expand_some (hlen : us.length + ws.length ≤ 7) :
    expand (us ++ ws) (some us.length) =
      some (us ++ List.replicate (8 - (us.length + ws.length)) 0 ++ ws) := by
  rw [expand, List.length_append, if_neg (by omega), List.take_left, List.drop_left]

theorem parse_compressed (hus : ∀ w ∈ us, w < 65536) (hws : ∀ w ∈ ws, w < 65536)
    (hlen : us.length + ws.length ≤ 7) :
    parse (groupsText us ++ [colon, colon] ++ groupsText ws) =
      some (us ++ List.replicate (8 - (us.length + ws.length)) 0 ++ ws) := by
  have hmark : scan (colon :: groupsText ws) ⟨us, none, 0, 0⟩ =
      scan (groupsText ws) ⟨us, some us.length, 0, 0⟩ := by
    rw [scan, digitValue_colon]
    rfl
  have hscan := @scan_groupsText us (some us.length) ws hws (by omega)
  rw [expand_some hlen, ← hmark] at hscan
  rcases List.eq_nil_or_concat' us with rfl | ⟨vs, v, rfl⟩
  · exact hscan
  · have hclosed : closed vs ++ hex v ++ (colon :: colon :: groupsText ws) =
        closed (vs ++ [v]) ++ (colon :: groupsText ws) := by
      simp [closed]
    have hparse := parse_groups hus (colon :: colon :: groupsText ws)
    rw [hclosed, scan_closed hus (by rw [List.length_nil]; omega) (List.cons_ne_nil _ _),
      List.nil_append, hscan, ← hclosed] at hparse
    rw [groupsText_concat, List.append_assoc]
    exact hparse

end Parse

/-! ### Validity -/

theorem valid_full {ws : List ℕ} (hws : ∀ w ∈ ws, w < 65536) (hlen : ws.length = 8) :
    Valid (groupsText ws) := by
  apply Valid.full
  · intro g hg
    obtain ⟨w, hw, rfl⟩ := List.mem_map.mp hg
    exact isGroup_hex (hws w hw)
  · rw [List.length_map, hlen]

theorem valid_compressed {us ws : List ℕ} (hus : ∀ w ∈ us, w < 65536)
    (hws : ∀ w ∈ ws, w < 65536) (hlen : us.length + ws.length ≤ 7) :
    Valid (groupsText us ++ [colon, colon] ++ groupsText ws) := by
  apply Valid.compressed
  · intro g hg
    obtain ⟨w, hw, rfl⟩ := List.mem_map.mp hg
    exact isGroup_hex (hus w hw)
  · intro g hg
    obtain ⟨w, hw, rfl⟩ := List.mem_map.mp hg
    exact isGroup_hex (hws w hw)
  · rwa [List.length_map, List.length_map]

theorem mem_joined {gs : List Text} {c : UInt8} (hc : c ∈ joined gs) :
    c = colon ∨ ∃ g ∈ gs, c ∈ g := by
  induction gs with
  | nil => cases hc
  | cons g gs ih =>
      cases gs with
      | nil => exact Or.inr ⟨g, List.mem_cons_self, hc⟩
      | cons h gs =>
          rcases List.mem_append.mp hc with hg | hrest
          · exact Or.inr ⟨g, List.mem_cons_self, hg⟩
          · rcases List.mem_cons.mp hrest with hcolon | hrest
            · exact Or.inl hcolon
            · rcases ih hrest with hcolon | ⟨k, hk, hck⟩
              · exact Or.inl hcolon
              · exact Or.inr ⟨k, List.mem_cons_of_mem g hk, hck⟩

/-- The characters of the notation. -/
theorem Valid.mem {text : Text} (h : Valid text) {c : UInt8} (hc : c ∈ text) :
    c = colon ∨ (digitValue c).isSome := by
  have hgroups : ∀ gs : List Text, (∀ g ∈ gs, IsGroup g) → c ∈ joined gs →
      c = colon ∨ (digitValue c).isSome := by
    intro gs hgs hmem
    rcases mem_joined hmem with hcolon | ⟨g, hg, hcg⟩
    · exact Or.inl hcolon
    · exact Or.inr ((hgs g hg).2.2 c hcg)
  cases h with
  | full hgs _ => exact hgroups _ hgs hc
  | compressed hgs hhs _ =>
      rcases List.mem_append.mp hc with hfront | hback
      · rcases List.mem_append.mp hfront with hfront | hcolons
        · exact hgroups _ hgs hfront
        · left
          simpa using hcolons
      · exact hgroups _ hhs hback

theorem Valid.ne_nil {text : Text} (h : Valid text) : text ≠ [] := by
  rintro rfl
  generalize htext : ([] : Text) = text at h
  cases h with
  | @full gs hgs hlen =>
      rcases gs with - | ⟨g, - | ⟨k, gs⟩⟩
      · cases hlen
      · cases hlen
      · simp [joined] at htext
  | compressed _ _ _ => simp at htext

end Ipv6Notation
