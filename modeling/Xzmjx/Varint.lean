import Mathlib.Algebra.Group.Nat.Defs
import Mathlib.Tactic.Common

/-!
# Zigzag and base-128 groups

Zigzag folds the sign of a two's complement integer into its lowest bit, with the
arithmetic of the machine. A base-128 code is a sequence of groups of seven bits,
the lowest first, in which every group but the last has its top bit set.
-/
namespace Varint

section Zigzag

variable {w : ℕ}

def zigzag (v : BitVec w) : BitVec w := if v.msb then -v * 2 - 1 else v * 2

def unzigzag (v : BitVec w) : BitVec w := (v >>> 1) ^^^ -(v &&& 1)

theorem toNat_and_one (x : BitVec w) : (x &&& 1).toNat = if w = 0 then 0 else x.toNat % 2 := by
  rcases w with _ | w
  · simp [BitVec.of_length_zero]
  · have h1 : (1 : BitVec (w + 1)).toNat = 1 := by simp
    rw [BitVec.toNat_and, h1, Nat.and_one_is_mod]
    simp

/-- An even code is the double of a value that is not negative. -/
theorem unzigzag_of_even (hw : 0 < w) {x : BitVec w} (h : x.toNat % 2 = 0) :
    unzigzag x = x >>> 1 := by
  have hlow : x &&& 1 = 0#w := by
    apply BitVec.eq_of_toNat_eq
    rw [toNat_and_one, if_neg (Nat.ne_of_gt hw), h]
    simp
  rw [unzigzag, hlow, BitVec.neg_zero, BitVec.xor_zero]

theorem unzigzag_of_odd (hw : 0 < w) {x : BitVec w} (h : x.toNat % 2 = 1) :
    unzigzag x = ~~~(x >>> 1) := by
  have hlow : x &&& 1 = 1#w := by
    apply BitVec.eq_of_toNat_eq
    rw [toNat_and_one, if_neg (Nat.ne_of_gt hw), h, BitVec.toNat_ofNat,
      Nat.mod_eq_of_lt (Nat.one_lt_two_pow (Nat.ne_of_gt hw))]
  rw [unzigzag, hlow, BitVec.neg_one_eq_allOnes, BitVec.xor_allOnes]

theorem unzigzag_zigzag (hw : 1 < w) (v : BitVec w) : unzigzag (zigzag v) = v := by
  obtain ⟨k, rfl⟩ : ∃ k, w = k + 2 := ⟨w - 2, by omega⟩
  have hpow : 2 ^ (k + 2) = 2 * 2 ^ (k + 1) := by rw [Nat.pow_succ, Nat.mul_comm]
  have hpos : 2 ≤ 2 ^ (k + 1) := by
    have := Nat.two_pow_pos k
    rw [Nat.pow_succ]
    omega
  have hlt : v.toNat < 2 * 2 ^ (k + 1) := hpow ▸ v.isLt
  have h2 : (2 : BitVec (k + 2)).toNat = 2 := by
    show 2 % 2 ^ (k + 2) = 2
    rw [hpow]
    exact Nat.mod_eq_of_lt (by omega)
  have h1 : (1 : BitVec (k + 2)).toNat = 1 := by simp
  have hmsb := BitVec.msb_eq_decide v
  rw [show k + 2 - 1 = k + 1 by omega] at hmsb
  unfold zigzag
  cases hv : v.msb with
  | false =>
      have hsmall : v.toNat < 2 ^ (k + 1) := by simpa [hv] using hmsb
      have hcode : (v * 2).toNat = 2 * v.toNat := by
        rw [BitVec.toNat_mul, h2, hpow, Nat.mod_eq_of_lt (by omega), Nat.mul_comm]
      simp only [Bool.false_eq_true, if_false]
      rw [unzigzag_of_even (by omega) (by omega)]
      apply BitVec.eq_of_toNat_eq
      rw [BitVec.toNat_ushiftRight, hcode, Nat.shiftRight_eq_div_pow]
      omega
  | true =>
      have hlarge : 2 ^ (k + 1) ≤ v.toNat := by simpa [hv] using hmsb
      have hneg : (-v).toNat = 2 ^ (k + 2) - v.toNat := by
        rw [BitVec.toNat_neg, Nat.mod_eq_of_lt (by omega)]
      have hcode : (-v * 2 - 1).toNat = 2 * (2 ^ (k + 2) - v.toNat) - 1 := by
        rw [BitVec.toNat_sub, BitVec.toNat_mul, h2, h1, hneg, hpow]
        generalize 2 ^ (k + 1) = p at *
        -- the least value is its own negation, and its double is zero
        by_cases hmin : v.toNat = p
        · rw [hmin, show (2 * p - p) * 2 = 2 * p by omega, Nat.mod_self, Nat.add_zero,
            Nat.mod_eq_of_lt (by omega)]
          omega
        · rw [Nat.mod_eq_of_lt (a := (2 * p - v.toNat) * 2) (by omega),
            show 2 * p - 1 + (2 * p - v.toNat) * 2 = 2 * (2 * p - v.toNat) - 1 + 2 * p by omega,
            Nat.add_mod_right, Nat.mod_eq_of_lt (by omega)]
      simp only [if_true]
      rw [unzigzag_of_odd (by omega) (by omega)]
      apply BitVec.eq_of_toNat_eq
      rw [BitVec.toNat_not, BitVec.toNat_ushiftRight, hcode, Nat.shiftRight_eq_div_pow]
      omega

end Zigzag

/-! ### Groups -/

/-- The groups of `value`, written to a buffer with `room` bytes left; `none` is a
store past the end of the buffer. -/
def groups : ℕ → ℕ → Option (List UInt8)
  | 0, _ => none
  | room + 1, value =>
      if 0x80 ≤ value then
        (groups room (value >>> 7)).map fun bs => UInt8.ofNat (value &&& 0x7F ||| 0x80) :: bs
      else some [UInt8.ofNat value]

theorem exists_groups {room value : ℕ} (hroom : 0 < room) (hvalue : value < 2 ^ (7 * room)) :
    ∃ bs, groups room value = some bs := by
  induction room generalizing value with
  | zero => omega
  | succ room ih =>
      simp only [groups]
      split_ifs with hlarge
      · have hpow : 2 ^ (7 * (room + 1)) = 128 * 2 ^ (7 * room) := by
          rw [Nat.mul_add, Nat.pow_add, Nat.mul_comm]
        have hshift : value >>> 7 = value / 128 := Nat.shiftRight_eq_div_pow value 7
        rcases room with _ | room
        · omega
        · have hfit : value >>> 7 < 2 ^ (7 * (room + 1)) := by omega
          obtain ⟨bs, hbs⟩ := ih (by omega) hfit
          exact ⟨_, by rw [hbs]; rfl⟩
      · exact ⟨_, rfl⟩

theorem ne_nil_of_groups {room value : ℕ} {bs : List UInt8} (h : groups room value = some bs) :
    bs ≠ [] := by
  cases room with
  | zero => cases h
  | succ room =>
      simp only [groups] at h
      split_ifs at h
      · obtain ⟨tail, -, rfl⟩ := Option.map_eq_some_iff.mp h
        simp
      · obtain rfl := Option.some.inj h
        simp

/-- A group that is not the last one has its top bit set over seven bits of the value. -/
theorem group_more (value : ℕ) :
    UInt8.ofNat (value &&& 0x7F ||| 0x80) &&& 0x80 ≠ 0 ∧
      (UInt8.ofNat (value &&& 0x7F ||| 0x80) &&& 0x7F).toNat = value % 128 := by
  have hlow : value &&& 0x7F = value % 128 := Nat.and_two_pow_sub_one_eq_mod value 7
  have hall : ∀ low < 128, UInt8.ofNat (low ||| 0x80) &&& 0x80 ≠ 0 ∧
      (UInt8.ofNat (low ||| 0x80) &&& 0x7F).toNat = low := by decide
  rw [hlow]
  exact hall _ (Nat.mod_lt _ (by decide))

theorem group_last {value : ℕ} (h : value < 0x80) :
    UInt8.ofNat value &&& 0x80 = 0 ∧ (UInt8.ofNat value).toNat = value := by
  have hall : ∀ v < 0x80, UInt8.ofNat v &&& 0x80 = 0 ∧ (UInt8.ofNat v).toNat = v := by decide
  exact hall value h

/-! ### Codes -/

/-- Every group but the last has its top bit set. -/
def Terminated (bs : List UInt8) : Prop :=
  ∃ init last, bs = init ++ [last] ∧ (∀ b ∈ init, b &&& 0x80 ≠ 0) ∧ last &&& 0x80 = 0

/-- The integer whose groups of seven bits are those of `bs`. -/
def value : List UInt8 → ℕ
  | [] => 0
  | b :: bs => (b &&& 0x7F).toNat + 128 * value bs

theorem terminated_singleton {b : UInt8} (h : b &&& 0x80 = 0) : Terminated [b] :=
  ⟨[], b, rfl, by simp, h⟩

theorem Terminated.cons {b : UInt8} {bs : List UInt8} (h : Terminated bs) (hb : b &&& 0x80 ≠ 0) :
    Terminated (b :: bs) := by
  obtain ⟨init, last, rfl, hinit, hlast⟩ := h
  exact ⟨b :: init, last, rfl, List.forall_mem_cons.mpr ⟨hb, hinit⟩, hlast⟩

theorem Terminated.ne_nil {bs : List UInt8} (h : Terminated bs) : bs ≠ [] := by
  obtain ⟨init, last, rfl, -, -⟩ := h
  simp

/-- A code ends at its first group without the top bit, so it is no proper part of another. -/
theorem Terminated.eq_of_isPrefix {bs cs : List UInt8} (hbs : Terminated bs) (hcs : Terminated cs)
    (h : bs <+: cs) : bs = cs := by
  obtain ⟨init, last, rfl, -, hlast⟩ := hbs
  obtain ⟨init', last', rfl, hinit', -⟩ := hcs
  rcases List.prefix_concat_iff.mp h with heq | hshort
  · exact heq
  · exact absurd hlast (hinit' last (hshort.subset (by simp)))

theorem value_lt (bs : List UInt8) : value bs < 128 ^ bs.length := by
  induction bs with
  | nil => simp [value]
  | cons b bs ih =>
      have hb : (b &&& 0x7F).toNat < 128 := by
        rw [UInt8.toNat_and]
        exact Nat.lt_succ_of_le Nat.and_le_right
      rw [value, List.length_cons, Nat.pow_succ]
      omega

theorem terminated_of_groups {room v : ℕ} {bs : List UInt8} (h : groups room v = some bs) :
    Terminated bs ∧ value bs = v ∧ bs.length ≤ room := by
  induction room generalizing v bs with
  | zero => cases h
  | succ room ih =>
      simp only [groups] at h
      split_ifs at h with hlarge
      · obtain ⟨tail, htail, rfl⟩ := Option.map_eq_some_iff.mp h
        obtain ⟨hterm, hval, hlen⟩ := ih htail
        obtain ⟨hmore, hlow⟩ := group_more v
        refine ⟨hterm.cons hmore, ?_, Nat.succ_le_succ hlen⟩
        rw [value, hlow, hval, Nat.shiftRight_eq_div_pow]
        omega
      · obtain rfl := Option.some.inj h
        obtain ⟨hlast, hval⟩ := group_last (by omega : v < 0x80)
        refine ⟨terminated_singleton hlast, ?_, by simp⟩
        have hlow : (UInt8.ofNat v &&& 0x7F).toNat = v := by
          rw [UInt8.toNat_and, hval]
          exact (Nat.and_two_pow_sub_one_eq_mod v 7).trans (Nat.mod_eq_of_lt (by omega))
        rw [value, hlow]
        rfl

/-- A value of `n` groups is not written in more of them. -/
theorem length_le_of_groups {room v n : ℕ} {bs : List UInt8} (h : groups room v = some bs)
    (hn : 0 < n) (hv : v < 128 ^ n) : bs.length ≤ n := by
  induction room generalizing v n bs with
  | zero => cases h
  | succ room ih =>
      simp only [groups] at h
      split_ifs at h with hlarge
      · obtain ⟨tail, htail, rfl⟩ := Option.map_eq_some_iff.mp h
        obtain ⟨m, rfl⟩ : ∃ m, n = m + 1 := ⟨n - 1, by omega⟩
        have hm : 0 < m := by
          rcases Nat.eq_zero_or_pos m with rfl | hm
          · omega
          · exact hm
        have hshift : v >>> 7 < 128 ^ m := by
          rw [Nat.shiftRight_eq_div_pow, Nat.div_lt_iff_lt_mul (by decide)]
          exact hv
        exact Nat.succ_le_succ (ih htail hm hshift)
      · obtain rfl := Option.some.inj h
        exact hn

/-- No code of the same value is shorter than the one that is written. -/
theorem shortest_of_groups {room v : ℕ} {bs cs : List UInt8} (h : groups room v = some bs)
    (hcs : Terminated cs) (hval : value cs = v) : bs.length ≤ cs.length := by
  apply length_le_of_groups h (List.length_pos_iff.mpr hcs.ne_nil)
  rw [← hval]
  exact value_lt cs

end Varint
