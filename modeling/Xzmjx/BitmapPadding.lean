import Xzmjx.BitmapArray

/-!
# The bits above the size

The block holds whole words, so a size that is no multiple of the word width leaves bits above
it. `get` and `set` accept their indices, `any` and the comparison read them, and `getCount`
counts them exactly when the words fill up groups of 64 bits.
-/
namespace Xzmjx.Bitmap
open ByteOrder ByteWords BaseType

variable {t : BaseType} {e : Endian} {b rhs : Bitmap t}

/-- How many of the bits below `n` are set. -/
def ones (e : Endian) (b : Bitmap t) (n : ℕ) : ℕ := (List.range n).countP (b.bit e)

section Ones
variable {i m n : ℕ}

theorem ones_succ (e : Endian) (b : Bitmap t) (n : ℕ) :
    b.ones e (n + 1) = b.ones e n + (b.bit e n).toNat := by
  rw [ones, List.range_succ, List.countP_append, List.countP_singleton, ones]
  cases b.bit e n with
  | false => rw [if_neg Bool.false_ne_true, Bool.toNat_false]
  | true => rw [if_pos rfl, Bool.toNat_true]

theorem ones_mono (h : m ≤ n) : b.ones e m ≤ b.ones e n :=
  List.Sublist.countP_le (List.range_sublist.mpr h)

theorem ones_le (e : Endian) (b : Bitmap t) (n : ℕ) : b.ones e n ≤ n := by
  have hle := List.countP_le_length (p := b.bit e) (l := List.range n)
  rwa [List.length_range] at hle

/-- The count does not grow over bits that are clear, and over no others. -/
theorem ones_eq_iff (h : m ≤ n) :
    b.ones e n = b.ones e m ↔ ∀ i, m ≤ i → i < n → b.bit e i = false := by
  induction n, h using Nat.le_induction with
  | base => exact ⟨fun _ i hm hi => absurd hi (not_lt.mpr hm), fun _ => rfl⟩
  | succ n hmn ih =>
      have hmono := ones_mono (e := e) (b := b) hmn
      rw [ones_succ]
      constructor
      · intro hcount i hm hi
        rcases Nat.lt_succ_iff_lt_or_eq.mp hi with hlt | rfl
        · exact ih.mp (by omega) i hm hlt
        · exact Bool.toNat_eq_zero.mp (by omega)
      · intro hclear
        rw [hclear n hmn (Nat.lt_succ_self n), Bool.toNat_false, Nat.add_zero]
        exact ih.mpr fun i hm hi => hclear i hm (Nat.lt_succ_of_lt hi)

theorem ones_pos_iff : 0 < b.ones e n ↔ ∃ i < n, b.bit e i = true := by
  rw [ones, List.countP_pos_iff]
  simp only [List.mem_range]

/-- The bits of a word. -/
theorem bit_word (b : Bitmap t) {j : ℕ} (hj : j < t.VALUE_SIZE) :
    b.bit e (t.VALUE_SIZE * i + j) = (b.word e i).testBit j := by
  rw [bit, Nat.mul_add_div t.VALUE_SIZE_pos, Nat.div_eq_of_lt hj, Nat.add_zero, Nat.mul_add_mod,
    Nat.mod_eq_of_lt hj]

theorem ones_words {k : ℕ} (hk : k ≤ b.dataSize) :
    b.ones e (t.VALUE_SIZE * k) = popCount (b.data.take (k * t.sizeof)) := by
  have hfits : k * t.sizeof ≤ b.data.length := by
    rw [b.data_length]
    exact Nat.mul_le_mul_right _ hk
  rw [ones, countP_range_mul, ← sum_bitCount_loadAt e t.sizeof k hfits]
  congr 1
  apply List.map_congr_left
  intro i _
  rw [bitCount, Nat.mul_comm 8]
  apply List.countP_congr
  intro j hj
  rw [bit_word b (List.mem_range.mp hj), word]

/-- Both halves of a word of 64 bits are counted. -/
theorem countBits_eq (v : ℕ) : countBits v = bitCount 64 v := by
  have hlow : bitCount 32 (v &&& 0xFFFFFFFF) = bitCount 32 v := by
    apply List.countP_congr
    intro j hj
    have hmask := Nat.testBit_two_pow_sub_one 32 j
    rw [decide_eq_true (List.mem_range.mp hj)] at hmask
    rw [Nat.testBit_and]
    show (v.testBit j && (2 ^ 32 - 1).testBit j) = true ↔ _
    rw [hmask, Bool.and_true]
  have hhigh : bitCount 32 (v >>> 32) =
      (List.range 32).countP ((fun j => v.testBit j) ∘ fun j => 32 + j) := by
    apply List.countP_congr
    intro j _
    rw [Nat.testBit_shiftRight, Function.comp_apply]
  have hsplit : List.range 64 = List.range 32 ++ (List.range 32).map fun j => 32 + j :=
    List.range_add (n := 32) (m := 32)
  rw [countBits, hlow, hhigh, bitCount, bitCount, hsplit, List.countP_append, List.countP_map]

end Ones

/-! ### The two loops of getCount -/

section Count
variable {c : Counter} {i k n : ℕ}

theorem countGroups_eq (hk : k * 8 ≤ b.data.length) :
    (List.range' 0 k).foldl (b.countGroup e) ⟨0, 0⟩ =
      ⟨popCount (b.data.take (k * 8)) % 2 ^ 32, k * 64 % 2 ^ 32⟩ := by
  have hloop : ∀ k, (List.range' 0 k).foldl (b.countGroup e) ⟨0, 0⟩ =
      ⟨((List.range k).map fun i => bitCount (8 * 8) (loadAt e 8 b.data i)).sum % 2 ^ 32,
        k * 64 % 2 ^ 32⟩ := by
    intro k
    induction k with
    | zero => rfl
    | succ k ih =>
        rw [List.range'_concat, List.foldl_append, ih, Nat.zero_add, Nat.one_mul, List.range_succ,
          List.map_append, List.sum_append, List.map_singleton, List.sum_singleton,
          Nat.add_mul k 1]
        show countGroup e b _ k = _
        rw [countGroup, Nat.mod_add_mod, Nat.mod_add_mod, U64_VALUE_SIZE_eq, countBits_eq]
  rw [hloop, sum_bitCount_loadAt e 8 k hk]

/-- The loop over the bits of a word counts those below the size. -/
theorem countWord_eq (b : Bitmap t) (e : Endian) (tmp : ℕ)
    (htmp : ∀ j < t.VALUE_SIZE, tmp.testBit j = b.bit e (t.VALUE_SIZE * i + j))
    (hn : n + k = t.VALUE_SIZE) (hpos : c.cur_pos = min b.size (t.VALUE_SIZE * i + n))
    (hcount : c.count = b.ones e c.cur_pos % 2 ^ 32) :
    countWord b tmp k n c =
      ⟨b.ones e (min b.size (t.VALUE_SIZE * (i + 1))) % 2 ^ 32,
        min b.size (t.VALUE_SIZE * (i + 1))⟩ := by
  induction k generalizing n c with
  | zero =>
      rw [Nat.add_zero] at hn
      rw [hn, ← Nat.mul_add_one] at hpos
      rw [countWord, ← hpos, ← hcount]
  | succ k ih =>
      rw [countWord]
      by_cases hcur : c.cur_pos < b.size
      · have hexact : c.cur_pos = t.VALUE_SIZE * i + n := by omega
        have hsize := b.size_lt
        have hnext : (c.cur_pos + 1) % 2 ^ 32 = c.cur_pos + 1 := Nat.mod_eq_of_lt (by omega)
        have hbit : tmp &&& t.POS n ≠ 0 ↔ b.bit e c.cur_pos = true := by
          have hlt : n < t.VALUE_SIZE := by omega
          rw [hexact, ← htmp n hlt, ← and_POS hlt, bne_iff_ne]
        rw [if_pos hcur]
        apply ih (by omega)
        · show (c.cur_pos + 1) % 2 ^ 32 = _
          omega
        · show (if tmp &&& t.POS n ≠ 0 then (c.count + 1) % 2 ^ 32 else c.count) =
            b.ones e ((c.cur_pos + 1) % 2 ^ 32) % 2 ^ 32
          rw [hnext, ones_succ, hcount]
          cases hset : b.bit e c.cur_pos with
          | true => rw [if_pos (hbit.mpr hset), Bool.toNat_true, Nat.mod_add_mod]
          | false =>
              have hclear : ¬tmp &&& t.POS n ≠ 0 := fun hne => by
                rw [hbit.mp hne] at hset
                cases hset
              rw [if_neg hclear, Bool.toNat_false, Nat.add_zero]
      · have hfull : c.cur_pos = min b.size (t.VALUE_SIZE * (i + 1)) := by
          rw [Nat.mul_succ]
          omega
        rw [if_neg hcur, ← hfull, ← hcount]

/-- Every word but the last lies below the size. -/
theorem full_word (h : i < b.dataSize) : t.VALUE_SIZE * i < b.size := by
  have hpos := t.VALUE_SIZE_pos
  have hdiv := Nat.div_mul_le_self (b.size + (t.VALUE_SIZE - 1)) t.VALUE_SIZE
  have hword : t.VALUE_SIZE * (i + 1) ≤ b.dataSize * t.VALUE_SIZE := by
    rw [Nat.mul_comm]
    exact Nat.mul_le_mul_right _ h
  rw [← b.dataSize_eq] at hdiv
  rw [Nat.mul_succ] at hword
  omega

/-- One word of the second loop. -/
theorem countTail_spec (hi : i < b.dataSize) (hpos : c.cur_pos = t.VALUE_SIZE * i)
    (hcount : c.count = b.ones e (t.VALUE_SIZE * i) % 2 ^ 32) :
    (b.countTail e c i).count = b.ones e (min b.size (t.VALUE_SIZE * (i + 1))) % 2 ^ 32 ∧
      (i + 1 < b.dataSize → (b.countTail e c i).cur_pos = t.VALUE_SIZE * (i + 1)) := by
  have hfull := full_word hi
  by_cases htmp : b.word e i ≠ 0
  · have hcounter := countWord_eq b e (b.word e i) (i := i) (k := t.VALUE_SIZE) (n := 0) (c := c)
      (fun j hj => (bit_word b hj).symm) (Nat.zero_add _)
      (by rw [hpos, Nat.add_zero]; exact (Nat.min_eq_right hfull.le).symm) (by rw [hpos, hcount])
    rw [countTail, if_pos htmp, hcounter]
    exact ⟨rfl, fun hnext => Nat.min_eq_right (full_word hnext).le⟩
  · rw [countTail, if_neg htmp]
    refine ⟨?_, fun hnext => ?_⟩
    · have hle : t.VALUE_SIZE * i ≤ min b.size (t.VALUE_SIZE * (i + 1)) := by
        rw [Nat.mul_succ]
        omega
      have hclear : b.ones e (min b.size (t.VALUE_SIZE * (i + 1))) =
          b.ones e (t.VALUE_SIZE * i) := by
        apply (ones_eq_iff hle).mpr
        intro p hlow hhigh
        rw [Nat.mul_succ] at hhigh
        have hp : p = t.VALUE_SIZE * i + (p - t.VALUE_SIZE * i) := by omega
        rw [hp, bit_word b (by omega), not_not.mp htmp, Nat.zero_testBit]
      rw [hclear]
      exact hcount
    · have hsize := b.size_lt
      have hlt := full_word hnext
      show (c.cur_pos + t.VALUE_SIZE) % 2 ^ 32 = _
      rw [hpos, ← Nat.mul_add_one, Nat.mod_eq_of_lt (by omega)]

/-- The second loop, which has a word at least to go over, stops counting at the size. -/
theorem countTails_spec (lo : ℕ) (hpos : c.cur_pos = t.VALUE_SIZE * lo)
    (hcount : c.count = b.ones e (t.VALUE_SIZE * lo) % 2 ^ 32) (hk : lo + k < b.dataSize) :
    ((List.range' lo (k + 1)).foldl (b.countTail e) c).count =
        b.ones e (min b.size (t.VALUE_SIZE * (lo + k + 1))) % 2 ^ 32 ∧
      (lo + k + 1 < b.dataSize → ((List.range' lo (k + 1)).foldl (b.countTail e) c).cur_pos =
        t.VALUE_SIZE * (lo + k + 1)) := by
  induction k with
  | zero => exact countTail_spec hk hpos hcount
  | succ k ih =>
      obtain ⟨hcount', hpos'⟩ := ih (by omega)
      rw [Nat.min_eq_right (full_word (by omega)).le] at hcount'
      rw [List.range'_concat, List.foldl_append, Nat.one_mul]
      exact countTail_spec hk (hpos' hk) hcount'

/-- `getCount` counts up to the size, unless the words fill up groups of 64 bits: then it counts
all of them. -/
theorem getCount_eq (e : Endian) (b : Bitmap t) :
    b.getCount e =
      b.ones e (if t.U64_DIV_BASE ∣ b.dataSize then b.dataSize * t.VALUE_SIZE else b.size) %
        2 ^ 32 := by
  have hdivpos : 0 < t.U64_DIV_BASE := by
    cases t <;> decide
  have hwidth : t.VALUE_SIZE * t.U64_DIV_BASE = 64 := t.U64_VALUE_SIZE_eq
  have hlen := Nat.div_mul_le_self b.dataSize t.U64_DIV_BASE
  generalize hgroups : b.dataSize / t.U64_DIV_BASE = len at hlen
  have hbytes : len * t.U64_DIV_BASE * t.sizeof = len * 8 := by rw [Nat.mul_assoc, DIV_mul_sizeof]
  have hfits : len * 8 ≤ b.data.length := by
    rw [← hbytes, b.data_length]
    exact Nat.mul_le_mul_right _ hlen
  have hfast := countGroups_eq (e := e) hfits
  have hones := ones_words (e := e) hlen
  rw [hbytes] at hones
  rw [getCount, hgroups, hfast, ← hones]
  by_cases hdvd : t.U64_DIV_BASE ∣ b.dataSize
  · have hall : len * t.U64_DIV_BASE = b.dataSize := by
      rw [← hgroups]
      exact Nat.div_mul_cancel hdvd
    rw [if_pos hdvd, hall, Nat.sub_self, Nat.mul_comm b.dataSize]
    rfl
  · have hlt : len * t.U64_DIV_BASE < b.dataSize := by
      apply lt_of_le_of_ne hlen
      intro heq
      exact hdvd ⟨len, by rw [← heq, Nat.mul_comm]⟩
    obtain ⟨k, hk⟩ : ∃ k, b.dataSize - len * t.U64_DIV_BASE = k + 1 :=
      ⟨_, (Nat.succ_pred (by omega)).symm⟩
    have hsize := b.size_lt
    have hword := full_word hlt
    have hcur : len * 64 = t.VALUE_SIZE * (len * t.U64_DIV_BASE) := by
      rw [Nat.mul_comm len t.U64_DIV_BASE, ← Nat.mul_assoc, hwidth, Nat.mul_comm]
    have htails := countTails_spec (b := b) (e := e) (k := k) (len * t.U64_DIV_BASE)
      (c := ⟨b.ones e (t.VALUE_SIZE * (len * t.U64_DIV_BASE)) % 2 ^ 32, len * 64 % 2 ^ 32⟩)
      (by rw [hcur]; exact Nat.mod_eq_of_lt (by omega)) rfl (by omega)
    have hlast : t.VALUE_SIZE * (len * t.U64_DIV_BASE + k + 1) = b.dataSize * t.VALUE_SIZE := by
      rw [Nat.mul_comm]
      congr 1
      omega
    rw [if_neg hdvd, hk, htails.1, hlast, Nat.min_eq_left b.size_le]

end Count

end Xzmjx.Bitmap
