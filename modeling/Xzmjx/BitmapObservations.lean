import Xzmjx.BitmapPadding

/-!
# What shows of the bits above the size

For each way of observing a bitmap, the exact condition under which the bits above the size do
not show in it. All of them hold together where the size is a multiple of the word width, and
nowhere else.
-/
namespace Xzmjx.Bitmap
open ByteOrder ByteWords BaseType

variable {t : BaseType} {e : Endian} {b rhs : Bitmap t}

/-- The number of indices below the size at which `get` gives true. -/
def trueIndices (e : Endian) (b : Bitmap t) : ℕ :=
  (List.range b.size).countP fun i => decide (b.get e i = .ok true)

theorem trueIndices_eq (e : Endian) (b : Bitmap t) : b.trueIndices e = b.ones e b.size := by
  apply List.countP_congr
  intro i hi
  rw [get_eq (stored (List.mem_range.mp hi)), decide_eq_true_iff]
  exact ⟨Except.ok.inj, congrArg Except.ok⟩

/-- All bits above the size are clear. -/
def PaddingClear (e : Endian) (b : Bitmap t) : Prop :=
  ∀ i, b.size ≤ i → i < b.dataSize * t.VALUE_SIZE → b.bit e i = false

theorem paddingClear_iff :
    PaddingClear e b ↔ b.ones e (b.dataSize * t.VALUE_SIZE) = b.ones e b.size :=
  (ones_eq_iff b.size_le).symm

theorem fills_words_iff (b : Bitmap t) :
    b.dataSize * t.VALUE_SIZE = b.size ↔ t.VALUE_SIZE ∣ b.size := by
  constructor
  · intro h
    exact ⟨b.dataSize, by rw [← h, Nat.mul_comm]⟩
  · rintro ⟨k, hk⟩
    have hdata : b.dataSize = k := by
      have hpos := t.VALUE_SIZE_pos
      rw [b.dataSize_eq, hk, Nat.mul_add_div hpos, Nat.div_eq_of_lt (by omega), Nat.add_zero]
    rw [hdata, hk, Nat.mul_comm]

/-! ### getCount -/

theorem getCount_right_iff :
    b.getCount e = b.trueIndices e ↔ ¬t.U64_DIV_BASE ∣ b.dataSize ∨ PaddingClear e b := by
  have hsize := b.size_lt
  have hle := ones_le e b b.size
  rw [trueIndices_eq, getCount_eq]
  by_cases hdvd : t.U64_DIV_BASE ∣ b.dataSize
  · have hmono := ones_mono (e := e) (b := b) b.size_le
    have hpad : b.dataSize * t.VALUE_SIZE < b.size + t.VALUE_SIZE := by
      have hpos := t.VALUE_SIZE_pos
      have hdiv := Nat.div_mul_le_self (b.size + (t.VALUE_SIZE - 1)) t.VALUE_SIZE
      rw [← b.dataSize_eq] at hdiv
      omega
    have hmore : b.ones e (b.dataSize * t.VALUE_SIZE) ≤
        b.ones e b.size + (b.dataSize * t.VALUE_SIZE - b.size) := by
      obtain ⟨k, hk⟩ := Nat.exists_eq_add_of_le b.size_le
      rw [hk, Nat.add_sub_cancel_left, ones, List.range_add, List.countP_append]
      apply Nat.add_le_add_left
      calc _ ≤ ((List.range k).map fun x => b.size + x).length := List.countP_le_length
        _ = k := by rw [List.length_map, List.length_range]
    have hwidth := t.VALUE_SIZE_le
    rw [if_pos hdvd, paddingClear_iff, or_iff_right (not_not.mpr hdvd)]
    omega
  · rw [if_neg hdvd, Nat.mod_eq_of_lt (by omega)]
    exact iff_of_true rfl (.inl hdvd)

/-! ### any -/

theorem any_iff : b.any e = true ↔ 0 < b.ones e (b.dataSize * t.VALUE_SIZE) := by
  have hwords : ((List.range b.dataSize).any fun i => b.word e i != 0) = true ↔
      0 < b.ones e (b.dataSize * t.VALUE_SIZE) := by
    rw [ones_pos_iff, List.any_eq_true]
    constructor
    · rintro ⟨i, hi, hword⟩
      obtain ⟨j, hj⟩ := Nat.exists_testBit_of_ne_zero (bne_iff_ne.mp hword)
      have hlt : j < t.VALUE_SIZE := by
        by_contra hge
        have hpow := Nat.pow_le_pow_right (n := 2) (by decide) (not_lt.mp hge)
        rw [Nat.testBit_lt_two_pow (lt_of_lt_of_le (word_lt e b i) hpow)] at hj
        cases hj
      refine ⟨t.VALUE_SIZE * i + j, ?_, by rw [bit_word b hlt, hj]⟩
      have hmul := Nat.mul_le_mul_left t.VALUE_SIZE (Nat.succ_le_of_lt (List.mem_range.mp hi))
      rw [Nat.mul_succ] at hmul
      rw [Nat.mul_comm b.dataSize]
      omega
    · rintro ⟨i, hi, hbit⟩
      refine ⟨i / t.VALUE_SIZE, List.mem_range.mpr (not_le.mp (accepted_iff.mpr hi)), ?_⟩
      rw [bne_iff_ne]
      intro hzero
      rw [bit, hzero, Nat.zero_testBit] at hbit
      cases hbit
  rw [any]
  split_ifs with hempty
  · have hzero : b.dataSize * t.sizeof = 0 := by
      rw [← b.data_length, List.isEmpty_iff.mp hempty, List.length_nil]
    have hdata : b.dataSize = 0 := (Nat.mul_eq_zero.mp hzero).resolve_right t.sizeof_pos.ne'
    rw [hdata, Nat.zero_mul]
    exact iff_of_false not_false (Nat.lt_irrefl 0)
  · exact hwords

theorem any_right_iff :
    (b.any e = true ↔ 0 < b.trueIndices e) ↔ 0 < b.trueIndices e ∨ PaddingClear e b := by
  have hmono := ones_mono (e := e) (b := b) b.size_le
  rw [any_iff, trueIndices_eq, paddingClear_iff]
  omega

/-! ### operator== -/

theorem eq_of_data {b rhs : Bitmap t} (hsize : rhs.size = b.size) (hdata : rhs.data = b.data) :
    rhs = b := by
  obtain ⟨size, dataSize, data, hlt, hwords, hlen⟩ := b
  obtain ⟨size', dataSize', data', hlt', hwords', hlen'⟩ := rhs
  subst hsize hdata
  rw [← hwords] at hwords'
  subst hwords'
  rfl

/-- A bitmap is its size and its bits. -/
theorem eq_iff_bits (hsize : rhs.size = b.size) :
    b = rhs ↔ ∀ i < b.dataSize * t.VALUE_SIZE, b.bit e i = rhs.bit e i := by
  constructor
  · rintro rfl i _
    rfl
  · intro hbits
    have hwords : b.dataSize = rhs.dataSize := by rw [b.dataSize_eq, rhs.dataSize_eq, hsize]
    apply (eq_of_data hsize _).symm
    apply eq_of_loadAt_eq (e := e) (hwords ▸ rhs.data_length) b.data_length
    intro i hi
    apply Nat.eq_of_testBit_eq
    intro j
    by_cases hj : j < t.VALUE_SIZE
    · have hin : t.VALUE_SIZE * i + j < b.dataSize * t.VALUE_SIZE := by
        have hmul := Nat.mul_le_mul_left t.VALUE_SIZE (Nat.succ_le_of_lt hi)
        rw [Nat.mul_succ] at hmul
        rw [Nat.mul_comm b.dataSize]
        omega
      have hbit := hbits _ hin
      rw [bit_word b hj, bit_word rhs hj] at hbit
      exact hbit.symm
    · have hpow := Nat.pow_le_pow_right (n := 2) (by decide) (not_lt.mp hj)
      have hzero := Nat.testBit_lt_two_pow (lt_of_lt_of_le (word_lt e b i) hpow)
      have hzero' := Nat.testBit_lt_two_pow (lt_of_lt_of_le (word_lt e rhs i) hpow)
      exact hzero'.trans hzero.symm

theorem equal_iff (hsize : rhs.size = b.size) : b.equal rhs = true ↔ b = rhs := by
  have hwords : b.dataSize = rhs.dataSize := by rw [b.dataSize_eq, rhs.dataSize_eq, hsize]
  have hdata : b.data.take (b.dataSize * t.sizeof) = b.data :=
    List.take_of_length_le (le_of_eq b.data_length)
  have hdata' : rhs.data.take (b.dataSize * t.sizeof) = rhs.data := by
    rw [hwords]
    exact List.take_of_length_le (le_of_eq rhs.data_length)
  rw [equal, hdata, hdata', Bool.and_eq_true, Bool.and_eq_true, beq_iff_eq, beq_iff_eq, beq_iff_eq]
  constructor
  · rintro ⟨-, hbytes⟩
    exact eq_of_data hsize.symm hbytes
  · rintro rfl
    exact ⟨⟨rfl, rfl⟩, rfl⟩

theorem equal_right_iff (hsize : rhs.size = b.size) :
    (b.equal rhs = true ↔ ∀ i < b.size, b.get e i = rhs.get e i) ↔
      (∃ i < b.size, b.bit e i ≠ rhs.bit e i) ∨
        ∀ i, b.size ≤ i → i < b.dataSize * t.VALUE_SIZE → b.bit e i = rhs.bit e i := by
  have hget : (∀ i < b.size, b.get e i = rhs.get e i) ↔ ∀ i < b.size, b.bit e i = rhs.bit e i := by
    apply forall₂_congr
    intro i hi
    rw [get_eq (stored hi), get_eq (stored (hsize.symm ▸ hi))]
    exact ⟨Except.ok.inj, congrArg Except.ok⟩
  rw [equal_iff hsize, eq_iff_bits (e := e) hsize, hget]
  constructor
  · intro h
    by_cases hbelow : ∀ i < b.size, b.bit e i = rhs.bit e i
    · exact .inr fun i _ hi => h.mpr hbelow i hi
    · push Not at hbelow
      exact .inl hbelow
  · rintro (⟨i, hi, hne⟩ | habove)
    · exact iff_of_false (fun h => hne (h i (stored hi))) fun h => hne (h i hi)
    · refine ⟨fun h i hi => h i (stored hi), fun h i hi => ?_⟩
      by_cases hbelow : i < b.size
      · exact h i hbelow
      · exact habove i (not_lt.mp hbelow) hi

/-! ### The range check -/

/-- What `get` and `set` do for an index that they do not accept. -/
def Throws (e : Endian) (b : Bitmap t) (idx : ℕ) : Prop :=
  b.get e idx = .error (.out_of_range "idx out of range") ∧
    ∀ v, b.set e idx v = .error (.out_of_range "idx out of range")

theorem throws_iff {idx : ℕ} : Throws e b idx ↔ b.dataSize * t.VALUE_SIZE ≤ idx := by
  refine ⟨fun h => ?_, fun h => ⟨get_throws h, set_throws h⟩⟩
  by_contra hlt
  have hget := h.1
  rw [get_eq (not_le.mp hlt)] at hget
  cases hget

theorem range_right_iff :
    (∀ idx < 2 ^ 32, b.size ≤ idx → Throws e b idx) ↔ t.VALUE_SIZE ∣ b.size := by
  rw [← fills_words_iff]
  constructor
  · intro h
    exact Nat.le_antisymm (throws_iff.mp (h b.size b.size_lt (Nat.le_refl _))) b.size_le
  · intro h idx _ hidx
    exact throws_iff.mpr (h ▸ hidx)

/-! ### All observations together -/

/-- Only the bits below the size show. -/
structure OnlyBelowSize (e : Endian) (b : Bitmap t) : Prop where
  count : b.getCount e = b.trueIndices e
  any : b.any e = true ↔ 0 < b.trueIndices e
  equal : ∀ rhs : Bitmap t, rhs.size = b.size →
    (b.equal rhs = true ↔ ∀ i < b.size, b.get e i = rhs.get e i)
  range : ∀ idx < 2 ^ 32, b.size ≤ idx → Throws e b idx

/-- Whatever the fill byte and the operations were that a bitmap came from, only its bits below
the size show exactly if the size is a multiple of the word width. -/
theorem onlyBelowSize_iff (e : Endian) (b : Bitmap t) :
    OnlyBelowSize e b ↔ t.VALUE_SIZE ∣ b.size := by
  refine ⟨fun h => range_right_iff.mp h.range, fun h => ?_⟩
  have hfills := (fills_words_iff b).mpr h
  have hclear : PaddingClear e b := fun i hlow hhigh => by omega
  exact {
    count := getCount_right_iff.mpr (.inr hclear)
    any := any_right_iff.mpr (.inr hclear)
    equal := fun rhs hsize => (equal_right_iff hsize).mpr (.inr fun i hlow hhigh => by omega)
    range := range_right_iff.mpr h }

/-- Five bits: the index 5 is accepted and gives the fill byte's bit, the complement of no bits is
not the bitmap of five, and in one word of 64 bits all of its bits are counted. -/
theorem fill_shows_above_size :
    ¬OnlyBelowSize .little (new .uint8 5 0xff (by decide)) ∧
      (new .uint8 5 0xff (by decide)).get .little 5 = .ok true ∧
      ((new .uint8 5 0 (by decide)).not .little).equal (new .uint8 5 0x1f (by decide)) = false ∧
      (new .uint64 5 0xff (by decide)).getCount .little = 64 := by
  refine ⟨fun h => ?_, by decide, by decide, by decide⟩
  have hthrows := (h.range 5 (by decide) (by decide)).1
  revert hthrows
  decide

/-! ### Reachable bitmaps -/

theorem reachable_prefix (e : Endian) (b : Bitmap t) {k : ℕ} (hk : k ≤ b.dataSize * t.VALUE_SIZE) :
    ∃ b' : Bitmap t, Reachable e b' ∧ b'.size = b.size ∧ ∀ i < k, b'.bit e i = b.bit e i := by
  induction k with
  | zero =>
      refine ⟨new t b.size 0 b.size_lt, .new b.size_lt, rfl, fun i hi => ?_⟩
      exact absurd hi (Nat.not_lt_zero i)
  | succ k ih =>
      obtain ⟨b', hreach, hsize, hbits⟩ := ih (by omega)
      have hwords : b'.dataSize = b.dataSize := by rw [b'.dataSize_eq, b.dataSize_eq, hsize]
      obtain ⟨b'', hset, hsize', -, hbit⟩ :=
        set_spec (e := e) (b := b') (i := k) (by rw [hwords]; omega) (b.bit e k)
      refine ⟨b'', hreach.set hset, hsize'.trans hsize, fun i hi => ?_⟩
      rw [hbit]
      split_ifs with hik
      · rw [hik]
      · exact hbits i (by omega)

/-- Every bitmap can be come by, one bit at a time. -/
theorem reachable (e : Endian) (b : Bitmap t) : Reachable e b := by
  obtain ⟨b', hreach, hsize, hbits⟩ := reachable_prefix e b (Nat.le_refl _)
  have heq : b = b' := (eq_iff_bits hsize).mpr fun i hi => (hbits i hi).symm
  exact heq ▸ hreach

end Xzmjx.Bitmap
