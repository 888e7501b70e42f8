import Mathlib.Tactic.Ring
import Xzmjx.ByteWords

/-!
# Masks of leading ones

The word whose `p` highest bits are set, and the same mask as a list of bytes with the highest
one first: whole bytes, one byte that is cut, and zeros.
-/
namespace PrefixMask
open ByteOrder ByteWords

/-- The word of `w` bits whose `p` highest bits are set. -/
def leadingOnes (w p : ℕ) : BitVec w := BitVec.allOnes w <<< (w - p)

theorem toNat_leadingOnes {w p : ℕ} : (leadingOnes w p).toNat = 2 ^ w - 2 ^ (w - p) := by
  have hpow : 2 ^ (w - p) ∣ 2 ^ w := Nat.pow_dvd_pow 2 (Nat.sub_le w p)
  have hle : 2 ^ (w - p) ≤ 2 ^ w := Nat.pow_le_pow_right (by decide) (Nat.sub_le w p)
  have hpos : 0 < 2 ^ (w - p) := Nat.two_pow_pos _
  obtain ⟨q, hq⟩ := hpow
  have hsplit : (2 ^ w - 1) * 2 ^ (w - p) =
      2 ^ w * (2 ^ (w - p) - 1) + (2 ^ w - 2 ^ (w - p)) := by
    rw [Nat.sub_mul, Nat.mul_sub, Nat.one_mul, Nat.mul_one]
    have hle' : 2 ^ w ≤ 2 ^ w * 2 ^ (w - p) := Nat.le_mul_of_pos_right _ hpos
    omega
  rw [leadingOnes, BitVec.toNat_shiftLeft, BitVec.toNat_allOnes, Nat.shiftLeft_eq, hsplit,
    Nat.mul_add_mod, Nat.mod_eq_of_lt (by omega)]

/-- The bits behind the prefix. -/
theorem toNat_not_leadingOnes {w p : ℕ} : (~~~leadingOnes w p).toNat = 2 ^ (w - p) - 1 := by
  have hle : 2 ^ (w - p) ≤ 2 ^ w := Nat.pow_le_pow_right (by decide) (Nat.sub_le w p)
  have hpos : 0 < 2 ^ (w - p) := Nat.two_pow_pos _
  rw [BitVec.toNat_not, toNat_leadingOnes]
  omega

/-- Byte `j` of the mask. -/
def maskByte (p j : ℕ) : UInt8 :=
  if j < p / 8 then 0xff else if j = p / 8 then UInt8.ofNat (256 - 2 ^ (8 - p % 8)) else 0

theorem maskByte_before {p j : ℕ} (h : j < p / 8) : maskByte p j = 0xff := if_pos h

theorem maskByte_behind {p j : ℕ} (h : p / 8 < j) : maskByte p j = 0 := by
  rw [maskByte, if_neg (by omega), if_neg (by omega)]

/-- The byte that the prefix cuts. -/
theorem maskByte_cut {p j : ℕ} (h : j = p / 8) :
    maskByte p j = .ofBitVec (leadingOnes 8 (p % 8)) := by
  rw [maskByte, if_neg (by omega), if_pos h]
  apply UInt8.toNat_inj.mp
  rw [UInt8.toNat_ofNat']
  show _ = (leadingOnes 8 (p % 8)).toNat
  rw [toNat_leadingOnes]
  have hpos : 0 < 2 ^ (8 - p % 8) := Nat.two_pow_pos _
  exact Nat.mod_eq_of_lt (by omega)

theorem maskByte_succ (p j : ℕ) : maskByte p (j + 1) = maskByte (p - 8) j := by
  rcases Nat.lt_or_ge p 8 with hp | hp
  · have hdiv : p / 8 = 0 := by omega
    have hzero : p - 8 = 0 := by omega
    rw [maskByte, maskByte, hdiv, hzero, if_neg (by omega), if_neg (by omega),
      if_neg (Nat.not_lt_zero j)]
    split_ifs with hj
    · rfl
    · rfl
  · have hdiv : p / 8 = (p - 8) / 8 + 1 := by omega
    have hmod : p % 8 = (p - 8) % 8 := by omega
    rw [maskByte, maskByte, hdiv, hmod]
    simp only [Nat.succ_lt_succ_iff, Nat.succ_inj]

def maskBytes (n p : ℕ) : List UInt8 := (List.range n).map (maskByte p)

@[simp] theorem length_maskBytes (n p : ℕ) : (maskBytes n p).length = n := by
  rw [maskBytes, List.length_map, List.length_range]

theorem maskBytes_succ (n p : ℕ) : maskBytes (n + 1) p = maskByte p 0 :: maskBytes n (p - 8) := by
  rw [maskBytes, List.range_succ_eq_map, List.map_cons, List.map_map, maskBytes]
  congr 1
  apply List.map_congr_left
  intro j _
  exact maskByte_succ p j

theorem ofLittle_append (xs ys : List UInt8) :
    ofLittle (xs ++ ys) = ofLittle xs + 256 ^ xs.length * ofLittle ys := by
  induction xs with
  | nil => simp [ofLittle]
  | cons x xs ih =>
      rw [List.cons_append, ofLittle, ih, ofLittle, List.length_cons, pow_succ]
      ring

theorem load_big_cons (x : UInt8) (xs : List UInt8) :
    load .big (x :: xs) = x.toNat * 256 ^ xs.length + load .big xs := by
  rw [load, load, List.reverse_cons, ofLittle_append, List.length_reverse, ofLittle, ofLittle]
  ring

/-- The bytes of the mask are those of the word. -/
theorem load_maskBytes {n p : ℕ} (h : p ≤ 8 * n) :
    load .big (maskBytes n p) = 2 ^ (8 * n) - 2 ^ (8 * n - p) := by
  induction n generalizing p with
  | zero =>
      have hp : p = 0 := by omega
      rw [hp]
      rfl
  | succ n ih =>
      have hpow : 2 ^ (8 * (n + 1)) = 256 * 2 ^ (8 * n) := by ring
      have hzero : 2 ^ (8 * n - (p - 8)) ≤ 2 ^ (8 * n) :=
        Nat.pow_le_pow_right (by decide) (Nat.sub_le _ _)
      rw [maskBytes_succ, load_big_cons, length_maskBytes, ih (by omega), pow_256, hpow]
      rcases Nat.lt_or_ge p 8 with hp | hp
      · have hrest : 2 ^ (8 * (n + 1) - p) = 2 ^ (8 - p) * 2 ^ (8 * n) := by
          rw [← pow_add]
          congr 1
          omega
        have hcut : 2 ^ (8 - p) ≤ 2 ^ 8 := Nat.pow_le_pow_right (by decide) (Nat.sub_le 8 p)
        have hpos : 0 < 2 ^ (8 - p) := Nat.two_pow_pos _
        have hbyte : (maskByte p 0).toNat = 256 - 2 ^ (8 - p) := by
          rw [maskByte, if_neg (by omega), if_pos (by omega), Nat.mod_eq_of_lt hp,
            UInt8.toNat_ofNat', Nat.mod_eq_of_lt (by omega)]
        rw [hbyte, hrest, Nat.sub_mul, Nat.sub_eq_zero_of_le hp.le, Nat.sub_zero, Nat.sub_self,
          Nat.add_zero]
      · have hrest : 8 * (n + 1) - p = 8 * n - (p - 8) := by omega
        have hbyte : (maskByte p 0).toNat = 255 := by
          rw [maskByte, if_pos (by omega)]
          rfl
        rw [hbyte, hrest]
        omega

end PrefixMask
