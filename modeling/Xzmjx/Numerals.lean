import Mathlib.Algebra.Order.Ring.Nat
import Mathlib.Data.List.Induction
import Mathlib.Tactic.Common
import Mathlib.Tactic.IntervalCases

/-!
# Numerals as bytes

The digits of a natural number in a base up to 16, as ASCII characters with the highest digit
first, and the value of a digit.
-/
namespace Numerals

/-- The text of `n` in base `b`, in lower case. -/
def numeral (b n : ℕ) : List UInt8 := (Nat.toDigits b n).map Char.toUInt8

/-- The value of a digit, of either case above nine. -/
def digitValue (c : UInt8) : Option ℕ :=
  if 48 ≤ c ∧ c ≤ 57 then some (c.toNat - 48)
  else if 97 ≤ c ∧ c ≤ 102 then some (c.toNat - 87)
  else if 65 ≤ c ∧ c ≤ 70 then some (c.toNat - 55)
  else none

/-- The character of a digit. -/
def digit (d : ℕ) : UInt8 := (Nat.digitChar d).toUInt8

theorem digitValue_digit {d : ℕ} (h : d < 16) : digitValue (digit d) = some d := by
  interval_cases d <;> rfl

variable {b n : ℕ}

theorem numeral_of_lt (h : n < b) : numeral b n = [digit n] := by
  rw [numeral, Nat.toDigits_of_lt_base h]
  rfl

/-- The last digit comes off the end. -/
theorem numeral_of_le (hb : 1 < b) (h : b ≤ n) :
    numeral b n = numeral b (n / b) ++ [digit (n % b)] := by
  rw [numeral, Nat.toDigits_of_base_le hb h, List.map_append]
  rfl

theorem numeral_ne_nil : numeral b n ≠ [] := by
  intro h
  exact Nat.toDigits_ne_nil (List.map_eq_nil_iff.mp h)

theorem length_numeral_le {k : ℕ} (hb : 1 < b) (hk : 0 < k) (h : n < b ^ k) :
    (numeral b n).length ≤ k := by
  rw [numeral, List.length_map]
  exact (Nat.length_toDigits_le_iff hb hk).mpr h

/-- Every character of a numeral is a digit. -/
theorem exists_digit_of_mem (hb : 1 < b) {c : UInt8} (hc : c ∈ numeral b n) :
    ∃ d, d < b ∧ c = digit d := by
  induction n using Nat.strong_induction_on with
  | _ n ih =>
      rcases Nat.lt_or_ge n b with hlt | hge
      · rw [numeral_of_lt hlt] at hc
        exact ⟨n, hlt, List.mem_singleton.mp hc⟩
      · rw [numeral_of_le hb hge] at hc
        rcases List.mem_append.mp hc with hhigh | hlast
        · exact ih (n / b) (Nat.div_lt_self (by omega) hb) hhigh
        · exact ⟨n % b, Nat.mod_lt n (by omega), List.mem_singleton.mp hlast⟩

theorem digit_injective {c d : ℕ} (hc : c < 16) (hd : d < 16) (h : digit c = digit d) : c = d := by
  have hvalue := digitValue_digit hc
  rw [h, digitValue_digit hd] at hvalue
  exact (Option.some.inj hvalue).symm

theorem numeral_ne_singleton (hb : 1 < b) (h : b ≤ n) (c : UInt8) : numeral b n ≠ [c] := by
  intro heq
  rw [numeral_of_le hb h] at heq
  have hlen := congrArg List.length heq
  rw [List.length_append, List.length_singleton, List.length_singleton] at hlen
  exact numeral_ne_nil (List.length_eq_zero_iff.mp (Nat.succ_injective hlen))

/-- Different numbers have different numerals. -/
theorem numeral_injective {m : ℕ} (hb : 1 < b) (hb' : b ≤ 16) (h : numeral b m = numeral b n) :
    m = n := by
  induction n using Nat.strong_induction_on generalizing m with
  | _ n ih =>
      rcases Nat.lt_or_ge m b with hm | hm
      · rw [numeral_of_lt hm] at h
        rcases Nat.lt_or_ge n b with hn | hn
        · rw [numeral_of_lt hn] at h
          exact digit_injective (by omega) (by omega) (List.cons.inj h).1
        · exact absurd h.symm (numeral_ne_singleton hb hn _)
      · rcases Nat.lt_or_ge n b with hn | hn
        · rw [numeral_of_lt hn] at h
          exact absurd h (numeral_ne_singleton hb hm _)
        · rw [numeral_of_le hb hm, numeral_of_le hb hn] at h
          obtain ⟨hhigh, hlast⟩ := List.append_inj' h rfl
          have hmod := digit_injective ((Nat.mod_lt m (by omega)).trans_le hb')
            ((Nat.mod_lt n (by omega)).trans_le hb') (List.cons.inj hlast).1
          have hdiv := ih (n / b) (Nat.div_lt_self (by omega) hb) hhigh
          rw [← Nat.div_add_mod m b, hmod, hdiv, Nat.div_add_mod]

/-! ### Reading digits -/

/-- The number that the digits `cs` spell. -/
def value (b : ℕ) (cs : List UInt8) : ℕ := cs.foldl (fun v c => v * b + (digitValue c).getD 0) 0

theorem value_append_singleton (cs : List UInt8) (c : UInt8) :
    value b (cs ++ [c]) = value b cs * b + (digitValue c).getD 0 := by
  rw [value, List.foldl_append]
  rfl

theorem value_numeral (hb : 1 < b) (hb' : b ≤ 16) (n : ℕ) : value b (numeral b n) = n := by
  induction n using Nat.strong_induction_on with
  | _ n ih =>
      rcases Nat.lt_or_ge n b with hlt | hge
      · rw [numeral_of_lt hlt, value, List.foldl_cons, List.foldl_nil,
          digitValue_digit (hlt.trans_le hb'), Nat.zero_mul, Nat.zero_add, Option.getD_some]
      · rw [numeral_of_le hb hge, value_append_singleton,
          ih (n / b) (Nat.div_lt_self (by omega) hb),
          digitValue_digit ((Nat.mod_lt n (by omega)).trans_le hb'), Option.getD_some,
          Nat.div_add_mod']

theorem value_prefix_le {xs ys : List UInt8} (hb : 1 < b) (h : xs <+: ys) :
    value b xs ≤ value b ys := by
  obtain ⟨zs, rfl⟩ := h
  induction zs using List.reverseRecOn with
  | nil => rw [List.append_nil]
  | append_singleton zs c ih =>
      rw [← List.append_assoc, value_append_singleton]
      have hmul := Nat.le_mul_of_pos_right (value b (xs ++ zs)) (by omega : 0 < b)
      omega

/-- What is spelled before a digit has room for it. -/
theorem value_mul_le {xs ys : List UInt8} {c : UInt8} (hb : 1 < b) (h : xs ++ [c] <+: ys) :
    value b xs * b ≤ value b ys := by
  have hle := value_prefix_le hb h
  rw [value_append_singleton] at hle
  omega

end Numerals
