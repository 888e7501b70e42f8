import Mathlib.Data.List.Range
import Xzmjx.BitmapModel

/-!
# A bitmap is a boolean array

`bit` reads the words as one array of bits. `get` and `set` are its lookup and update, and a
walk over the words, whatever the widths of its two loops, acts on every bit by itself.
-/
namespace Xzmjx.Bitmap
open ByteOrder ByteWords BaseType

variable {t : BaseType} {e : Endian}

/-- The bit with index `i`, also above the size. -/
def bit (e : Endian) (b : Bitmap t) (i : ℕ) : Bool :=
  (b.word e (i / t.VALUE_SIZE)).testBit (i % t.VALUE_SIZE)

section Words
variable {b : Bitmap t} {i j : ℕ}

theorem two_pow_VALUE_SIZE (t : BaseType) : 256 ^ t.sizeof = 2 ^ t.VALUE_SIZE := by
  rw [pow_256, VALUE_SIZE, Nat.mul_comm]

theorem word_lt (e : Endian) (b : Bitmap t) (i : ℕ) : b.word e i < 2 ^ t.VALUE_SIZE := by
  rw [← two_pow_VALUE_SIZE]
  exact loadAt_lt e t.sizeof b.data i

theorem pos_lt (t : BaseType) (i : ℕ) : i % t.VALUE_SIZE < t.VALUE_SIZE :=
  Nat.mod_lt i t.VALUE_SIZE_pos

theorem POS_eq (h : i < t.VALUE_SIZE) : t.POS i = 2 ^ i := by
  rw [POS, Nat.one_shiftLeft, Nat.mod_eq_of_lt (Nat.pow_lt_pow_right (by decide) h)]

theorem and_POS (h : i < t.VALUE_SIZE) (v : ℕ) : (v &&& t.POS i != 0) = v.testBit i := by
  rw [POS_eq h, Nat.and_two_pow]
  cases v.testBit i with
  | false => rw [Bool.toNat_false, Nat.zero_mul, bne_self_eq_false]
  | true =>
      rw [Bool.toNat_true, Nat.one_mul, bne_iff_ne]
      exact (Nat.two_pow_pos i).ne'

theorem testBit_or_POS (h : i < t.VALUE_SIZE) (v : ℕ) :
    (v ||| t.POS i).testBit j = if j = i then true else v.testBit j := by
  rw [POS_eq h, Nat.testBit_or, Nat.testBit_two_pow]
  by_cases hj : j = i
  · rw [if_pos hj, decide_eq_true hj.symm, Bool.or_true]
  · rw [if_neg hj, decide_eq_false (Ne.symm hj), Bool.or_false]

theorem testBit_and_NPOS (h : i < t.VALUE_SIZE) (hj : j < t.VALUE_SIZE) (v : ℕ) :
    (v &&& t.NPOS i).testBit j = if j = i then false else v.testBit j := by
  have hpos : t.POS i < 256 ^ t.sizeof := by
    rw [POS_eq h, two_pow_VALUE_SIZE]
    exact Nat.pow_lt_pow_right (by decide) h
  have hbits : j < 8 * t.sizeof := by rwa [Nat.mul_comm]
  rw [NPOS, Nat.testBit_and, testBit_complement hpos, decide_eq_true hbits, POS_eq h,
    Nat.testBit_two_pow, Bool.true_and]
  by_cases hij : j = i
  · rw [if_pos hij, decide_eq_true hij.symm, Bool.not_true, Bool.and_false]
  · rw [if_neg hij, decide_eq_false (Ne.symm hij), Bool.not_false, Bool.and_true]

/-- The indices that `get` and `set` accept are those of the bits that are stored. -/
theorem accepted_iff : ¬b.dataSize ≤ i / t.VALUE_SIZE ↔ i < b.dataSize * t.VALUE_SIZE := by
  rw [not_le]
  exact Nat.div_lt_iff_lt_mul t.VALUE_SIZE_pos

theorem stored (h : i < b.size) : i < b.dataSize * t.VALUE_SIZE := lt_of_lt_of_le h b.size_le

theorem get_eq (h : i < b.dataSize * t.VALUE_SIZE) : b.get e i = .ok (b.bit e i) := by
  rw [get, if_neg (accepted_iff.mpr h), and_POS (pos_lt t i), bit]

theorem get_throws (h : b.dataSize * t.VALUE_SIZE ≤ i) :
    b.get e i = .error (.out_of_range "idx out of range") := by
  have hcur := not_not.mp (mt accepted_iff.mp (not_lt.mpr h))
  rw [get, if_pos hcur]

theorem set_throws (h : b.dataSize * t.VALUE_SIZE ≤ i) (v : Bool) :
    b.set e i v = .error (.out_of_range "idx out of range") := by
  have hcur := not_not.mp (mt accepted_iff.mp (not_lt.mpr h))
  rw [set, dif_pos hcur]

theorem size_of_set {b' : Bitmap t} {v : Bool} (h : b.set e i v = .ok b') : b'.size = b.size := by
  unfold set at h
  dsimp only at h
  split at h
  · cases h
  · cases h
    rfl

/-- `set` changes one bit. -/
theorem set_spec (h : i < b.dataSize * t.VALUE_SIZE) (v : Bool) :
    ∃ b', b.set e i v = .ok b' ∧ b'.size = b.size ∧ b'.dataSize = b.dataSize ∧
      ∀ j, b'.bit e j = if j = i then v else b.bit e j := by
  have hcur : i / t.VALUE_SIZE < b.dataSize := not_le.mp (accepted_iff.mpr h)
  rw [set, dif_neg (accepted_iff.mpr h)]
  refine ⟨_, rfl, rfl, rfl, fun j => ?_⟩
  show (loadAt e t.sizeof (storeAt e t.sizeof b.data (i / t.VALUE_SIZE)
      (if v then b.word e (i / t.VALUE_SIZE) ||| t.POS (i % t.VALUE_SIZE)
        else b.word e (i / t.VALUE_SIZE) &&& t.NPOS (i % t.VALUE_SIZE))) (j / t.VALUE_SIZE)).testBit
      (j % t.VALUE_SIZE) =
    if j = i then v
    else (loadAt e t.sizeof b.data (j / t.VALUE_SIZE)).testBit (j % t.VALUE_SIZE)
  by_cases hword : j / t.VALUE_SIZE = i / t.VALUE_SIZE
  · have hindex : j = i ↔ j % t.VALUE_SIZE = i % t.VALUE_SIZE := by
      refine ⟨fun hij => by rw [hij], fun hmod => ?_⟩
      rw [← Nat.div_add_mod j t.VALUE_SIZE, hword, hmod, Nat.div_add_mod]
    rw [hword]
    cases v with
    | false =>
        have hlt : b.word e (i / t.VALUE_SIZE) &&& t.NPOS (i % t.VALUE_SIZE) < 256 ^ t.sizeof := by
          rw [two_pow_VALUE_SIZE]
          exact lt_of_le_of_lt Nat.and_le_left (word_lt e b _)
        rw [if_neg Bool.false_ne_true, loadAt_storeAt_self (b.word_fits hcur) hlt,
          testBit_and_NPOS (pos_lt t i) (pos_lt t j)]
        exact if_congr hindex.symm rfl rfl
    | true =>
        have hlt : b.word e (i / t.VALUE_SIZE) ||| t.POS (i % t.VALUE_SIZE) < 256 ^ t.sizeof := by
          rw [two_pow_VALUE_SIZE]
          apply Nat.or_lt_two_pow (word_lt e b _)
          rw [POS_eq (pos_lt t i)]
          exact Nat.pow_lt_pow_right (by decide) (pos_lt t i)
        rw [if_pos rfl, loadAt_storeAt_self (b.word_fits hcur) hlt, testBit_or_POS (pos_lt t i)]
        exact if_congr hindex.symm rfl rfl
  · rw [loadAt_storeAt_of_ne (b.word_fits hcur) (Ne.symm hword), if_neg]
    rintro rfl
    exact hword rfl

end Words

/-! ### Walks -/

section Walk
variable {f : ℕ → ℕ → ℕ → ℕ} {g : UInt8 → UInt8 → UInt8} {b rhs : Bitmap t}

theorem data_length_eq (h : rhs.size = b.size) : b.data.length = rhs.data.length := by
  rw [b.data_length, rhs.data_length, b.dataSize_eq, rhs.dataSize_eq, h]

/-- The two loops together act once on every byte. -/
theorem walk_eq (hf : Bytewise f g) {rhs : List UInt8} (hlen : b.data.length = rhs.length) :
    b.walk e f rhs = List.zipWith g b.data rhs := by
  have hfits := b.maxSize_fits
  have hbytes : b.maxSize * t.U64_DIV_BASE * t.sizeof = b.maxSize * 8 := by
    rw [Nat.mul_assoc, DIV_mul_sizeof]
  have hlast : (b.maxSize * t.U64_DIV_BASE + (b.dataSize - b.maxSize * t.U64_DIV_BASE)) *
      t.sizeof = b.data.length := by
    rw [Nat.add_sub_cancel' b.maxSize_le, b.data_length]
  have hfast : (combine e 8 f b.fastIndices rhs b.data).length = b.data.length :=
    length_combine 0 b.maxSize (by omega)
  apply List.ext_getElem?
  intro j
  rw [walk, tailIndices, getElem?_combine hf (hfast.trans hlen) _ _ (by rw [hlast, hfast]), hlast,
    hbytes, List.getElem?_zipWith, List.getElem?_zipWith, fastIndices,
    getElem?_combine hf hlen 0 b.maxSize (by omega), List.getElem?_zipWith]
  by_cases hlow : j < b.maxSize * 8
  · rw [if_neg (by omega), if_pos (by omega)]
  · rw [if_neg (by omega : ¬(0 * 8 ≤ j ∧ j < (0 + b.maxSize) * 8))]
    by_cases hhigh : j < b.data.length
    · rw [if_pos ⟨by omega, hhigh⟩]
    · rw [if_neg (by omega), List.getElem?_eq_none (by omega)]

theorem word_walked (hf : Bytewise f g) {rhs : List UInt8} (hlen : b.data.length = rhs.length)
    {i : ℕ} (hi : i < b.dataSize) :
    (b.walked e f rhs).word e i = f t.sizeof (b.word e i) (loadAt e t.sizeof rhs i) := by
  show loadAt e t.sizeof (b.walk e f rhs) i = _
  rw [walk_eq hf hlen, loadAt_zipWith hf hlen (b.word_fits hi), word]

/-- The words that the two loops write, those of 64 bits taken apart. -/
def touched (b : Bitmap t) : List ℕ :=
  (b.fastIndices.flatMap fun i => List.range' (i * t.U64_DIV_BASE) t.U64_DIV_BASE) ++ b.tailIndices

theorem flatMap_range' (k n : ℕ) :
    ((List.range' 0 k).flatMap fun i => List.range' (i * n) n) = List.range' 0 (k * n) := by
  induction k with
  | zero => rw [Nat.zero_mul, List.range'_zero, List.flatMap_nil]
  | succ k ih =>
      rw [List.range'_concat, List.flatMap_append, ih, List.flatMap_singleton, Nat.one_mul,
        Nat.zero_add, Nat.succ_mul, ← List.range'_append_1, Nat.zero_add]

theorem touched_eq (b : Bitmap t) : b.touched = List.range b.dataSize := by
  rw [touched, fastIndices, flatMap_range', tailIndices, List.range_eq_range']
  have hjoin := List.range'_append_1 (s := 0) (m := b.maxSize * t.U64_DIV_BASE)
    (n := b.dataSize - b.maxSize * t.U64_DIV_BASE)
  rw [Nat.zero_add, Nat.add_sub_cancel' b.maxSize_le] at hjoin
  exact hjoin

end Walk

/-! ### The operators -/

/-- `b'` is a bitmap of the same size whose value at every index is `op` of those of `b` and
`rhs`. -/
def Pointwise (e : Endian) (op : Bool → Bool → Bool) (b rhs b' : Bitmap t) : Prop :=
  b'.size = b.size ∧ ∀ i < b.size, ∃ x y,
    b.get e i = .ok x ∧ rhs.get e i = .ok y ∧ b'.get e i = .ok (op x y)

theorem pointwise_of_bit {op : Bool → Bool → Bool} {b rhs b' : Bitmap t} (hrhs : rhs.size = b.size)
    (hsize : b'.size = b.size) (h : ∀ i < b.size, b'.bit e i = op (b.bit e i) (rhs.bit e i)) :
    Pointwise e op b rhs b' := by
  refine ⟨hsize, fun i hi => ⟨b.bit e i, rhs.bit e i, ?_, ?_, ?_⟩⟩
  · exact get_eq (stored hi)
  · exact get_eq (stored (hrhs ▸ hi))
  · rw [get_eq (stored (hsize ▸ hi)), h i hi]

section Operators
variable {b rhs : Bitmap t}

theorem copy_eq (b : Bitmap t) : b.copy = b := by
  obtain ⟨size, dataSize, data, hlt, hsize, hlen⟩ := b
  have htake : data.take (dataSize * t.sizeof) = data := List.take_of_length_le (le_of_eq hlen)
  simp only [copy, htake]

/-- The bits after an operation that acts on bits. -/
theorem bit_walked {f : ℕ → ℕ → ℕ → ℕ} {g : UInt8 → UInt8 → UInt8} (op : Bool → Bool → Bool)
    (hf : Bytewise f g)
    (hop : ∀ x y j, x < 2 ^ t.VALUE_SIZE → j < t.VALUE_SIZE →
      (f t.sizeof x y).testBit j = op (x.testBit j) (y.testBit j))
    (h : rhs.size = b.size) {i : ℕ} (hi : i < b.dataSize * t.VALUE_SIZE) :
    (b.walked e f rhs.data).bit e i = op (b.bit e i) (rhs.bit e i) := by
  have hword : i / t.VALUE_SIZE < b.dataSize := not_le.mp (accepted_iff.mpr hi)
  rw [bit, word_walked hf (data_length_eq h) hword, hop _ _ _ (word_lt e b _) (pos_lt t i)]
  rfl

theorem andAssign_spec (h : rhs.size = b.size) :
    ∃ b', b.andAssign e rhs = .ok b' ∧ b'.size = b.size ∧ b'.dataSize = b.dataSize ∧
      ∀ i < b.dataSize * t.VALUE_SIZE, b'.bit e i = (b.bit e i && rhs.bit e i) := by
  rw [andAssign, if_neg (not_not.mpr h.symm)]
  refine ⟨_, rfl, rfl, rfl, fun i hi => ?_⟩
  exact bit_walked Bool.and bytewise_and (fun x y j _ _ => Nat.testBit_and x y j) h hi

theorem orAssign_spec (h : rhs.size = b.size) :
    ∃ b', b.orAssign e rhs = .ok b' ∧ b'.size = b.size ∧ b'.dataSize = b.dataSize ∧
      ∀ i < b.dataSize * t.VALUE_SIZE, b'.bit e i = (b.bit e i || rhs.bit e i) := by
  rw [orAssign, if_neg (not_not.mpr h.symm)]
  refine ⟨_, rfl, rfl, rfl, fun i hi => ?_⟩
  exact bit_walked Bool.or bytewise_or (fun x y j _ _ => Nat.testBit_or x y j) h hi

theorem bit_not {i : ℕ} (hi : i < b.dataSize * t.VALUE_SIZE) :
    (b.not e).bit e i = !b.bit e i := by
  refine bit_walked (fun x _ => !x) bytewise_complement (fun x y j hx hj => ?_) rfl hi
  rw [← two_pow_VALUE_SIZE] at hx
  rw [VALUE_SIZE, Nat.mul_comm] at hj
  rw [testBit_complement hx, decide_eq_true hj, Bool.true_and]

/-- For every word width, size and contents a bitmap is a boolean array, and the two loops of
its operators write every word once. -/
theorem boolean_array (e : Endian) (b : Bitmap t) :
    (∀ i < b.size, ∀ v, ∃ b', b.set e i v = .ok b') ∧
      (∀ i v b', b.set e i v = .ok b' → b'.size = b.size ∧ b'.get e i = .ok v ∧
        ∀ j < b.size, j ≠ i → b'.get e j = b.get e j) ∧
      (∀ rhs : Bitmap t, rhs.size = b.size →
        (∃ b', b.andAssign e rhs = .ok b' ∧ Pointwise e Bool.and b rhs b') ∧
          (∃ b', b.orAssign e rhs = .ok b' ∧ Pointwise e Bool.or b rhs b') ∧
          (∃ b', b.and e rhs = .ok b' ∧ Pointwise e Bool.and b rhs b') ∧
          ∃ b', b.or e rhs = .ok b' ∧ Pointwise e Bool.or b rhs b') ∧
      Pointwise e (fun x _ => !x) b b (b.not e) ∧ b.touched = List.range b.dataSize := by
  refine ⟨fun i hi v => ?_, fun i v b' hset => ?_, fun rhs h => ?_, ?_, b.touched_eq⟩
  · obtain ⟨b', hb', -⟩ := set_spec (e := e) (stored hi) v
    exact ⟨b', hb'⟩
  · have hi : i < b.dataSize * t.VALUE_SIZE := by
      by_contra hge
      rw [set_throws (not_lt.mp hge)] at hset
      cases hset
    obtain ⟨b'', hb'', hsize, hdata, hbit⟩ := set_spec (e := e) hi v
    obtain rfl : b'' = b' := Except.ok.inj (hb''.symm.trans hset)
    refine ⟨hsize, ?_, fun j hj hne => ?_⟩
    · rw [get_eq (by rw [hdata]; exact hi), hbit, if_pos rfl]
    · rw [get_eq (by rw [hdata]; exact stored hj), get_eq (stored hj), hbit, if_neg hne]
  · obtain ⟨both, hand, hsize, hdata, hbits⟩ := andAssign_spec (e := e) h
    obtain ⟨either, hor, hsize', hdata', hbits'⟩ := orAssign_spec (e := e) h
    have hpand := pointwise_of_bit h hsize fun i hi => hbits i (stored hi)
    have hpor := pointwise_of_bit h hsize' fun i hi => hbits' i (stored hi)
    rw [and, or, copy_eq]
    exact ⟨⟨both, hand, hpand⟩, ⟨either, hor, hpor⟩, ⟨both, hand, hpand⟩, ⟨either, hor, hpor⟩⟩
  · exact pointwise_of_bit rfl rfl fun i hi => bit_not (stored hi)

end Operators

end Xzmjx.Bitmap
