import Mathlib.Data.List.Lex
import Mathlib.Data.Set.Insert
import Mathlib.Tactic.Common
import Xzmjx.StreamReads

/-!
# The order of addresses

An address is compared through its first `getAddrLen()` bytes. The comparison of the common
part is that of the lexicographic order, in which a proper prefix would come first; the test
that should say so compares a length with itself.
-/
namespace Xzmjx.AddressOrder
open StreamModel (toInt toInt_of_lt)

/-- The bytes that `getAddr` and `getAddrLen` show; the length is a `socklen_t`. -/
@[ext] structure Address where
  bytes : List UInt8
  length_lt : bytes.length < 2 ^ 32
  deriving DecidableEq, Repr

inductive Fault
  /-- `memcmp` is asked for more bytes than an object has. -/
  | outsideObject
  deriving DecidableEq, Repr

/-- `memcmp`: the difference of the first bytes that are not equal. -/
def memcmp : List UInt8 → List UInt8 → ℕ → ℤ
  | x :: xs, y :: ys, n + 1 => if x = y then memcmp xs ys n else x.toNat - y.toNat
  | _, _, _ => 0

namespace Address

def getAddrLen (a : Address) : ℕ := a.bytes.length

/-- `operator<`. The minimum becomes an `int`, and a `size_t` again for the call. -/
def lt (a rhs : Address) : Except Fault Bool :=
  let min_size := toInt (min a.getAddrLen rhs.getAddrLen)
  if min_size < 0 then .error .outsideObject
  else
    let result := memcmp a.bytes rhs.bytes min_size.toNat
    if result < 0 then .ok true
    else if 0 < result then .ok false
    -- both sides are the length of the left operand
    else if a.getAddrLen < a.getAddrLen then .ok true
    else .ok false

/-- `operator==`. -/
def eq (a rhs : Address) : Bool :=
  a.getAddrLen == rhs.getAddrLen && memcmp a.bytes rhs.bytes a.getAddrLen == 0

/-- Neither comes before the other. -/
def Incomparable (a b : Address) : Prop := a.lt b ≠ .ok true ∧ b.lt a ≠ .ok true

/-- The laws of a strict total order on the addresses of a set, consistent with equality. -/
structure OrderLaws (S : Set Address) : Prop where
  trichotomy : ∀ a ∈ S, ∀ b ∈ S,
    (a.lt b = .ok true ∧ a.eq b = false ∧ b.lt a = .ok false) ∨
    (a.lt b = .ok false ∧ a.eq b = true ∧ b.lt a = .ok false) ∨
    (a.lt b = .ok false ∧ a.eq b = false ∧ b.lt a = .ok true)
  trans : ∀ a ∈ S, ∀ b ∈ S, ∀ c ∈ S, a.lt b = .ok true → b.lt c = .ok true → a.lt c = .ok true
  incomparable_trans : ∀ a ∈ S, ∀ b ∈ S, ∀ c ∈ S,
    Incomparable a b → Incomparable b c → Incomparable a c

end Address

/-! ### The common part -/

section Memcmp
variable {xs ys : List UInt8}

/-- The bytes as the numbers that `memcmp` compares. -/
def key (xs : List UInt8) : List ℕ := xs.map UInt8.toNat

theorem key_injective : Function.Injective key :=
  List.map_injective_iff.mpr fun _ _ h => UInt8.toNat_inj.mp h

theorem memcmp_swap (xs ys : List UInt8) (n : ℕ) : memcmp ys xs n = -memcmp xs ys n := by
  induction n generalizing xs ys with
  | zero => cases xs <;> cases ys <;> rfl
  | succ n ih =>
      cases xs with
      | nil => cases ys <;> rfl
      | cons x xs =>
          cases ys with
          | nil => rfl
          | cons y ys =>
              rw [memcmp, memcmp]
              by_cases hxy : x = y
              · rw [if_pos hxy.symm, if_pos hxy, ih]
              · rw [if_neg (Ne.symm hxy), if_neg hxy, Int.neg_sub]

/-- The common part decides where neither list is a prefix of the other. -/
theorem memcmp_neg_iff :
    memcmp xs ys (min xs.length ys.length) < 0 ↔ key xs < key ys ∧ ¬xs <+: ys := by
  induction xs generalizing ys with
  | nil => simp [memcmp]
  | cons x xs ih =>
      cases ys with
      | nil => simp [memcmp, key]
      | cons y ys =>
          rw [List.length_cons, List.length_cons, Nat.succ_min_succ, memcmp,
            List.cons_prefix_cons]
          show _ ↔ x.toNat :: key xs < y.toNat :: key ys ∧ _
          rw [List.cons_lt_cons_iff]
          by_cases hxy : x = y
          · subst hxy
            rw [if_pos rfl, ih]
            simp
          · have hne : x.toNat ≠ y.toNat := fun h => hxy (UInt8.toNat_inj.mp h)
            rw [if_neg hxy]
            simp only [hxy, hne, false_and, or_false, not_false_eq_true, and_true]
            omega

theorem memcmp_pos_iff :
    0 < memcmp xs ys (min xs.length ys.length) ↔ key ys < key xs ∧ ¬ys <+: xs := by
  have hswap := memcmp_swap xs ys (min xs.length ys.length)
  rw [← memcmp_neg_iff, Nat.min_comm ys.length, hswap]
  omega

theorem memcmp_append (xs zs : List UInt8) (n : ℕ) : memcmp xs (xs ++ zs) n = 0 := by
  induction xs generalizing n with
  | nil => rfl
  | cons x xs ih =>
      cases n with
      | zero => rfl
      | succ n =>
          rw [List.cons_append, memcmp, if_pos rfl]
          exact ih n

/-- The common part is equal where one list is a prefix of the other. -/
theorem memcmp_zero_of_front (h : xs <+: ys) (n : ℕ) : memcmp xs ys n = 0 := by
  obtain ⟨zs, rfl⟩ := h
  exact memcmp_append xs zs n

/-- Otherwise it decides. -/
theorem memcmp_decides (hxy : ¬xs <+: ys) (hyx : ¬ys <+: xs) :
    memcmp xs ys (min xs.length ys.length) < 0 ∨ 0 < memcmp xs ys (min xs.length ys.length) := by
  rw [memcmp_neg_iff, memcmp_pos_iff]
  rcases lt_trichotomy (key xs) (key ys) with hlt | heq | hgt
  · exact Or.inl ⟨hlt, hxy⟩
  · rw [key_injective heq] at hxy
    exact absurd (List.prefix_refl ys) hxy
  · exact Or.inr ⟨hgt, hyx⟩

end Memcmp

/-! ### The comparison -/

namespace Address
variable {a b : Address} {S : Set Address}

/-- The last test never succeeds. -/
theorem lt_eq (h : min a.getAddrLen b.getAddrLen < 2 ^ 31) :
    a.lt b = .ok (decide (memcmp a.bytes b.bytes (min a.getAddrLen b.getAddrLen) < 0)) := by
  have hnonneg : ¬((min a.getAddrLen b.getAddrLen : ℕ) : ℤ) < 0 := by omega
  rw [lt, toInt_of_lt h]
  dsimp only
  rw [if_neg hnonneg, Int.toNat_natCast, if_neg (Nat.lt_irrefl a.getAddrLen), ite_self]
  split_ifs with hneg
  · rw [decide_eq_true hneg]
  · rw [decide_eq_false hneg]

theorem lt_fault (h : ¬min a.getAddrLen b.getAddrLen < 2 ^ 31) :
    a.lt b = .error .outsideObject := by
  have hlt : min a.getAddrLen b.getAddrLen < 2 ^ 32 :=
    Nat.lt_of_le_of_lt (Nat.min_le_left _ _) a.length_lt
  have hneg : toInt (min a.getAddrLen b.getAddrLen) < 0 := by
    unfold toInt
    rw [Int.bmod_def]
    omega
  rw [lt]
  dsimp only
  rw [if_pos hneg]

theorem eq_iff : a.eq b = true ↔ a = b := by
  rw [eq, Bool.and_eq_true, beq_iff_eq, beq_iff_eq]
  constructor
  · rintro ⟨hlen, hcmp⟩
    by_contra hne
    have hbytes : a.bytes ≠ b.bytes := fun h => hne (Address.ext h)
    have hmin : min a.bytes.length b.bytes.length = a.getAddrLen := by
      rw [← show a.bytes.length = b.bytes.length from hlen, Nat.min_self]
      rfl
    have hdecides := memcmp_decides (fun h => hbytes (h.eq_of_length hlen))
      (fun h => hbytes (h.eq_of_length hlen.symm).symm)
    rw [hmin, hcmp] at hdecides
    omega
  · rintro rfl
    exact ⟨rfl, memcmp_zero_of_front (List.prefix_refl _) _⟩

theorem eq_false (h : a ≠ b) : a.eq b = false := by
  rw [← Bool.not_eq_true, eq_iff]
  exact h

/-- Nothing decides between an address and one that it is a prefix of. -/
theorem lt_both_false (hlen : min a.getAddrLen b.getAddrLen < 2 ^ 31)
    (hpre : a.bytes <+: b.bytes) : a.lt b = .ok false ∧ b.lt a = .ok false := by
  have hzero := memcmp_zero_of_front hpre
  rw [lt_eq hlen, lt_eq (by rwa [Nat.min_comm]), hzero, memcmp_swap, hzero]
  exact ⟨rfl, rfl⟩

/-- Otherwise the comparison is that of the lexicographic order. -/
theorem lt_iff_key (hlen : min a.getAddrLen b.getAddrLen < 2 ^ 31)
    (hpre : ¬a.bytes <+: b.bytes) : a.lt b = .ok true ↔ key a.bytes < key b.bytes := by
  rw [lt_eq hlen, Except.ok.injEq, decide_eq_true_iff]
  exact memcmp_neg_iff.trans (and_iff_left hpre)

theorem lt_ok (hlen : min a.getAddrLen b.getAddrLen < 2 ^ 31) (h : a.lt b ≠ .ok true) :
    a.lt b = .ok false := by
  rw [lt_eq hlen] at h ⊢
  rw [decide_eq_false fun hneg => h (congrArg _ (decide_eq_true hneg))]

/-! ### The laws -/

/-- The addresses that the code can order. -/
structure Orderable (S : Set Address) : Prop where
  /-- A length that fits an `int`. -/
  length_lt : ∀ a ∈ S, a.getAddrLen < 2 ^ 31
  /-- No address is a proper prefix of another. -/
  prefix_free : ∀ a ∈ S, ∀ b ∈ S, a.bytes <+: b.bytes → a = b

theorem Orderable.min_lt (h : Orderable S) (ha : a ∈ S) (b : Address) :
    min a.getAddrLen b.getAddrLen < 2 ^ 31 :=
  Nat.lt_of_le_of_lt (Nat.min_le_left _ _) (h.length_lt a ha)

theorem Orderable.lt_iff (h : Orderable S) (ha : a ∈ S) (hb : b ∈ S) :
    a.lt b = .ok true ↔ key a.bytes < key b.bytes := by
  by_cases hab : a = b
  · subst hab
    rw [(lt_both_false (h.min_lt ha a) (List.prefix_refl _)).1]
    exact iff_of_false (fun hf => by cases hf) (lt_irrefl _)
  · exact lt_iff_key (h.min_lt ha b) fun hpre => hab (h.prefix_free a ha b hb hpre)

theorem Orderable.incomparable_iff (h : Orderable S) (ha : a ∈ S) (hb : b ∈ S) :
    Incomparable a b ↔ a = b := by
  rw [Incomparable, Ne, Ne, h.lt_iff ha hb, h.lt_iff hb ha]
  constructor
  · rintro ⟨hab, hba⟩
    exact Address.ext (key_injective (le_antisymm (not_lt.mp hba) (not_lt.mp hab)))
  · rintro rfl
    exact ⟨lt_irrefl _, lt_irrefl _⟩

theorem Orderable.refused (h : Orderable S) (ha : a ∈ S) (hb : b ∈ S)
    (hkey : ¬key a.bytes < key b.bytes) : a.lt b = .ok false :=
  lt_ok (h.min_lt ha b) fun hlt => hkey ((h.lt_iff ha hb).mp hlt)

theorem orderLaws_of_orderable (h : Orderable S) : OrderLaws S where
  trichotomy a ha b hb := by
    rcases lt_trichotomy (key a.bytes) (key b.bytes) with hlt | heq | hgt
    · refine Or.inl ⟨(h.lt_iff ha hb).mpr hlt, eq_false ?_, h.refused hb ha hlt.asymm⟩
      rintro rfl
      exact lt_irrefl _ hlt
    · refine Or.inr (Or.inl ⟨h.refused ha hb heq.not_lt, ?_, h.refused hb ha heq.not_gt⟩)
      exact eq_iff.mpr (Address.ext (key_injective heq))
    · refine Or.inr (Or.inr ⟨h.refused ha hb hgt.asymm, eq_false ?_, (h.lt_iff hb ha).mpr hgt⟩)
      rintro rfl
      exact lt_irrefl _ hgt
  trans a ha b hb c hc hab hbc := by
    rw [h.lt_iff ha hb] at hab
    rw [h.lt_iff hb hc] at hbc
    exact (h.lt_iff ha hc).mpr (hab.trans hbc)
  incomparable_trans a ha b hb c hc hab hbc := by
    rw [h.incomparable_iff ha hb] at hab
    rw [h.incomparable_iff hb hc] at hbc
    exact (h.incomparable_iff ha hc).mpr (hab.trans hbc)

theorem orderable_of_orderLaws (h : OrderLaws S) : Orderable S := by
  have hlength : ∀ a ∈ S, a.getAddrLen < 2 ^ 31 := by
    intro a ha
    by_contra hlong
    have hfault : a.lt a = .error .outsideObject := lt_fault (by rwa [Nat.min_self])
    rcases h.trichotomy a ha a ha with ⟨hlt, -⟩ | ⟨hlt, -⟩ | ⟨hlt, -⟩
    · cases hfault.symm.trans hlt
    · cases hfault.symm.trans hlt
    · cases hfault.symm.trans hlt
  refine ⟨hlength, fun a ha b hb hpre => ?_⟩
  have hmin : min a.getAddrLen b.getAddrLen < 2 ^ 31 :=
    Nat.lt_of_le_of_lt (Nat.min_le_left _ _) (hlength a ha)
  obtain ⟨hab, hba⟩ := lt_both_false hmin hpre
  rcases h.trichotomy a ha b hb with ⟨hlt, -⟩ | ⟨-, heq, -⟩ | ⟨-, -, hlt⟩
  · cases hab.symm.trans hlt
  · exact eq_iff.mp heq
  · cases hba.symm.trans hlt

/-- The laws hold among addresses exactly where none is a proper prefix of another. -/
theorem orderLaws_iff (S : Set Address) : OrderLaws S ↔ Orderable S :=
  ⟨orderable_of_orderLaws, orderLaws_of_orderable⟩

/-- Unix addresses whose paths are `\\0a` and `\\0ab`, which have no terminator. -/
theorem prefix_unordered :
    lt ⟨[1, 0, 0, 97], by decide⟩ ⟨[1, 0, 0, 97, 98], by decide⟩ = .ok false ∧
      lt ⟨[1, 0, 0, 97, 98], by decide⟩ ⟨[1, 0, 0, 97], by decide⟩ = .ok false ∧
      eq ⟨[1, 0, 0, 97], by decide⟩ ⟨[1, 0, 0, 97, 98], by decide⟩ = false := by
  decide

end Address

end Xzmjx.AddressOrder
