import Mathlib.Data.List.Count
import Mathlib.Data.Nat.Bitwise
import Xzmjx.BlockList
import Xzmjx.ByteOrder

/-!
# Memory in words

A block of bytes is read and written in words of `n` bytes under a byte order. Operations that
act on every byte by itself do the same to a block whatever the width of the words in which it
is walked over, and so does the counting of bits.
-/
namespace ByteWords
open ByteOrder BlockList

/-- The word with index `i`. -/
def loadAt (e : Endian) (n : ℕ) (bs : List UInt8) (i : ℕ) : ℕ := load e ((bs.drop (i * n)).take n)

def storeAt (e : Endian) (n : ℕ) (bs : List UInt8) (i v : ℕ) : List UInt8 :=
  overlay bs (i * n) (store e n v)

theorem store_load (e : Endian) (bs : List UInt8) : store e bs.length (load e bs) = bs := by
  cases e with
  | little => exact toLittle_ofLittle bs
  | big =>
      have hback := toLittle_ofLittle bs.reverse
      rw [List.length_reverse] at hback
      rw [store, load, hback, List.reverse_reverse]

section Words
variable {e : Endian} {n : ℕ} {bs : List UInt8} {i j v : ℕ}

/-- A word that lies in the block. -/
theorem add_le_of_mul_le {k length : ℕ} (hi : i < k) (h : k * n ≤ length) : i * n + n ≤ length := by
  calc i * n + n = (i + 1) * n := (Nat.succ_mul i n).symm
    _ ≤ k * n := Nat.mul_le_mul_right n hi
    _ ≤ length := h

theorem loadAt_lt (e : Endian) (n : ℕ) (bs : List UInt8) (i : ℕ) : loadAt e n bs i < 256 ^ n := by
  have hlen : ((bs.drop (i * n)).take n).length ≤ n := List.length_take_le _ _
  exact lt_of_lt_of_le (load_lt e _) (Nat.pow_le_pow_right (by decide) hlen)

theorem length_storeAt (h : i * n + n ≤ bs.length) : (storeAt e n bs i v).length = bs.length :=
  overlay_length (by rwa [length_store])

theorem getElem?_storeAt (h : i * n + n ≤ bs.length) (k : ℕ) :
    (storeAt e n bs i v)[k]? =
      if i * n ≤ k ∧ k < i * n + n then (store e n v)[k - i * n]? else bs[k]? := by
  rw [storeAt, getElem?_overlay (by rwa [length_store]), length_store]

theorem loadAt_storeAt_self (h : i * n + n ≤ bs.length) (hv : v < 256 ^ n) :
    loadAt e n (storeAt e n bs i v) i = v := by
  have hslice : ((storeAt e n bs i v).drop (i * n)).take n = store e n v := by
    apply List.ext_getElem?
    intro k
    by_cases hk : k < n
    · rw [List.getElem?_take_of_lt hk, List.getElem?_drop, getElem?_storeAt h,
        if_pos ⟨by omega, by omega⟩, Nat.add_sub_cancel_left]
    · rw [List.getElem?_eq_none (by rw [List.length_take]; omega),
        List.getElem?_eq_none (by rw [length_store]; omega)]
  rw [loadAt, hslice, load_store e hv]

theorem loadAt_storeAt_of_ne (h : i * n + n ≤ bs.length) (hne : i ≠ j) :
    loadAt e n (storeAt e n bs i v) j = loadAt e n bs j := by
  have hapart : i * n + n ≤ j * n ∨ j * n + n ≤ i * n := by
    rcases Nat.lt_or_gt_of_ne hne with hlt | hgt
    · exact .inl (add_le_of_mul_le hlt (Nat.le_refl _))
    · exact .inr (add_le_of_mul_le hgt (Nat.le_refl _))
  have hslice : ((storeAt e n bs i v).drop (j * n)).take n = (bs.drop (j * n)).take n := by
    apply List.ext_getElem?
    intro k
    by_cases hk : k < n
    · rw [List.getElem?_take_of_lt hk, List.getElem?_take_of_lt hk, List.getElem?_drop,
        List.getElem?_drop, getElem?_storeAt h, if_neg (by omega)]
    · rw [List.getElem?_eq_none (by rw [List.length_take]; omega),
        List.getElem?_eq_none (by rw [List.length_take]; omega)]
  rw [loadAt, hslice, loadAt]

/-- Blocks with the same words are the same. -/
theorem eq_of_loadAt_eq {k : ℕ} {xs ys : List UInt8} (hx : xs.length = k * n)
    (hy : ys.length = k * n) (h : ∀ i < k, loadAt e n xs i = loadAt e n ys i) : xs = ys := by
  induction k generalizing xs ys with
  | zero =>
      rw [Nat.zero_mul] at hx hy
      rw [List.eq_nil_of_length_eq_zero hx, List.eq_nil_of_length_eq_zero hy]
  | succ k ih =>
      rw [Nat.succ_mul] at hx hy
      have hfirst : xs.take n = ys.take n := by
        have hword := h 0 (Nat.succ_pos k)
        have hlx : (xs.take n).length = n := by rw [List.length_take]; omega
        have hly : (ys.take n).length = n := by rw [List.length_take]; omega
        rw [loadAt, loadAt, Nat.zero_mul, List.drop_zero, List.drop_zero] at hword
        have hsx := store_load e (xs.take n)
        have hsy := store_load e (ys.take n)
        rw [hlx] at hsx
        rw [hly] at hsy
        rw [← hsx, ← hsy, hword]
      have hrest : xs.drop n = ys.drop n := by
        refine ih (by rw [List.length_drop]; omega) (by rw [List.length_drop]; omega) fun i hi => ?_
        have hword := h (i + 1) (Nat.succ_lt_succ hi)
        have hadd : (i + 1) * n = n + i * n := by rw [Nat.succ_mul, Nat.add_comm]
        rw [loadAt, loadAt, hadd, ← List.drop_drop, ← List.drop_drop] at hword
        exact hword
      rw [← List.take_append_drop n xs, ← List.take_append_drop n ys, hfirst, hrest]

end Words

/-! ### Bytewise operations -/

/-- On integers of `n` bytes `f n` does to every byte what `g` does. -/
def Bytewise (f : ℕ → ℕ → ℕ → ℕ) (g : UInt8 → UInt8 → UInt8) : Prop :=
  ∀ xs ys, xs.length = ys.length →
    f xs.length (ofLittle xs) (ofLittle ys) = ofLittle (List.zipWith g xs ys)

/-- One more byte below. -/
theorem testBit_ofLittle_cons (b : UInt8) (bs : List UInt8) (j : ℕ) :
    (ofLittle (b :: bs)).testBit j =
      if j < 8 then b.toNat.testBit j else (ofLittle bs).testBit (j - 8) := by
  have hcons : ofLittle (b :: bs) = 2 ^ 8 * ofLittle bs + b.toNat := by
    rw [ofLittle, Nat.add_comm]
    rfl
  rw [hcons, Nat.testBit_two_pow_mul_add _ b.toNat_lt]

theorem bytewise_of_testBit {f : ℕ → ℕ → ℕ → ℕ} {g : UInt8 → UInt8 → UInt8}
    (op : Bool → Bool → Bool)
    (hf : ∀ n x y j, x < 256 ^ n → y < 256 ^ n →
      (f n x y).testBit j = (decide (j < 8 * n) && op (x.testBit j) (y.testBit j)))
    (hg : ∀ x y : UInt8, ∀ j, (g x y).toNat.testBit j =
      (decide (j < 8) && op (x.toNat.testBit j) (y.toNat.testBit j))) : Bytewise f g := by
  intro xs ys hlen
  apply Nat.eq_of_testBit_eq
  intro j
  rw [hf _ _ _ _ (ofLittle_lt xs) (hlen ▸ ofLittle_lt ys)]
  induction xs generalizing ys j with
  | nil => simp [ofLittle]
  | cons x xs ih =>
      cases ys with
      | nil => cases hlen
      | cons y ys =>
          have hlen' : xs.length = ys.length := Nat.succ_injective hlen
          rw [List.zipWith_cons_cons, testBit_ofLittle_cons, testBit_ofLittle_cons,
            testBit_ofLittle_cons, List.length_cons]
          split_ifs with hj
          · rw [hg, decide_eq_true hj, decide_eq_true (by omega : j < 8 * (xs.length + 1))]
          · rw [← ih ys hlen' (j - 8)]
            congr 1
            exact decide_eq_decide.mpr (by omega)

/-- The value of `~v` in `n` bytes. -/
def complement (n v : ℕ) : ℕ := 256 ^ n - (v + 1)

theorem pow_256 (n : ℕ) : 256 ^ n = 2 ^ (8 * n) := by
  rw [Nat.pow_mul]

theorem testBit_complement {n v : ℕ} (h : v < 256 ^ n) (j : ℕ) :
    (complement n v).testBit j = (decide (j < 8 * n) && !v.testBit j) := by
  rw [pow_256] at h
  rw [complement, pow_256]
  exact Nat.testBit_two_pow_sub_succ h j

/-- Above the width there is nothing for an operation to see. -/
theorem masked_testBit {n x y j : ℕ} (hx : x < 2 ^ n) (hy : y < 2 ^ n) {op : Bool → Bool → Bool}
    (hop : op false false = false) :
    op (x.testBit j) (y.testBit j) = (decide (j < n) && op (x.testBit j) (y.testBit j)) := by
  by_cases hj : j < n
  · rw [decide_eq_true hj, Bool.true_and]
  · have hpow : 2 ^ n ≤ 2 ^ j := Nat.pow_le_pow_right (by decide) (by omega)
    rw [Nat.testBit_lt_two_pow (by omega), Nat.testBit_lt_two_pow (by omega), hop, Bool.and_false]

theorem bytewise_and : Bytewise (fun _ x y => x &&& y) (· &&& ·) := by
  apply bytewise_of_testBit Bool.and
  · intro n x y j hx hy
    rw [pow_256] at hx hy
    rw [Nat.testBit_and]
    exact masked_testBit hx hy rfl
  · intro x y j
    rw [UInt8.toNat_and, Nat.testBit_and]
    exact masked_testBit x.toNat_lt y.toNat_lt rfl

theorem bytewise_or : Bytewise (fun _ x y => x ||| y) (· ||| ·) := by
  apply bytewise_of_testBit Bool.or
  · intro n x y j hx hy
    rw [pow_256] at hx hy
    rw [Nat.testBit_or]
    exact masked_testBit hx hy rfl
  · intro x y j
    rw [UInt8.toNat_or, Nat.testBit_or]
    exact masked_testBit x.toNat_lt y.toNat_lt rfl

theorem bytewise_complement : Bytewise (fun n x _ => complement n x) (fun x _ => ~~~x) := by
  apply bytewise_of_testBit fun x _ => !x
  · intro n x y j hx hy
    exact testBit_complement hx j
  · intro x y j
    have hnot : (~~~x).toNat = complement 1 x.toNat := by
      rw [UInt8.toNat_not, Nat.sub_sub, Nat.add_comm]
      rfl
    rw [hnot]
    exact testBit_complement x.toNat_lt j

/-- The words with the given indices, one after another. -/
def combine (e : Endian) (n : ℕ) (f : ℕ → ℕ → ℕ → ℕ) (is : List ℕ) (rhs data : List UInt8) :
    List UInt8 :=
  is.foldl (fun data i => storeAt e n data i (f n (loadAt e n data i) (loadAt e n rhs i))) data

section Combine
variable {e : Endian} {n : ℕ} {f : ℕ → ℕ → ℕ → ℕ} {g : UInt8 → UInt8 → UInt8}
  {data rhs : List UInt8}

theorem load_zipWith (h : Bytewise f g) {xs ys : List UInt8} (hlen : xs.length = ys.length) :
    f xs.length (load e xs) (load e ys) = load e (List.zipWith g xs ys) := by
  cases e with
  | little => exact h xs ys hlen
  | big =>
      have hrev := h xs.reverse ys.reverse (by simpa using hlen)
      rw [List.length_reverse, ← List.reverse_zipWith hlen] at hrev
      exact hrev

theorem loadAt_zipWith (h : Bytewise f g) (hlen : data.length = rhs.length) {i : ℕ}
    (hi : i * n + n ≤ data.length) :
    loadAt e n (List.zipWith g data rhs) i = f n (loadAt e n data i) (loadAt e n rhs i) := by
  have hdata : ((data.drop (i * n)).take n).length = n := by
    rw [List.length_take, List.length_drop]
    omega
  have hrhs : ((rhs.drop (i * n)).take n).length = n := by
    rw [List.length_take, List.length_drop]
    omega
  have hwords := load_zipWith (e := e) h (hdata.trans hrhs.symm)
  rw [hdata] at hwords
  rw [loadAt, loadAt, loadAt, hwords, List.drop_zipWith, List.take_zipWith]

theorem combine_concat (lo k : ℕ) :
    combine e n f (List.range' lo (k + 1)) rhs data =
      storeAt e n (combine e n f (List.range' lo k) rhs data) (lo + k)
        (f n (loadAt e n (combine e n f (List.range' lo k) rhs data) (lo + k))
          (loadAt e n rhs (lo + k))) := by
  rw [List.range'_concat, combine, List.foldl_append, Nat.one_mul]
  rfl

theorem length_combine (lo k : ℕ) (hk : (lo + k) * n ≤ data.length) :
    (combine e n f (List.range' lo k) rhs data).length = data.length := by
  induction k with
  | zero => rfl
  | succ k ih =>
      rw [← Nat.add_assoc, Nat.succ_mul] at hk
      have hlength := ih (by omega)
      rw [combine_concat, length_storeAt (by omega), hlength]

/-- A walk over the words from `lo` on has done to their bytes what `g` does, and nothing to
the others. -/
theorem getElem?_combine (h : Bytewise f g) (hlen : data.length = rhs.length) (lo k : ℕ)
    (hk : (lo + k) * n ≤ data.length) (j : ℕ) :
    (combine e n f (List.range' lo k) rhs data)[j]? =
      if lo * n ≤ j ∧ j < (lo + k) * n then (List.zipWith g data rhs)[j]? else data[j]? := by
  induction k generalizing j with
  | zero =>
      rw [if_neg (by rw [Nat.add_zero]; omega)]
      rfl
  | succ k ih =>
      have hsum : (lo + (k + 1)) * n = (lo + k) * n + n := by rw [← Nat.add_assoc, Nat.succ_mul]
      have hle : lo * n ≤ (lo + k) * n := Nat.mul_le_mul_right n (Nat.le_add_right lo k)
      have hlength : (combine e n f (List.range' lo k) rhs data).length = data.length :=
        length_combine lo k (by omega)
      have hfits : (lo + k) * n + n ≤ (combine e n f (List.range' lo k) rhs data).length := by
        omega
      -- the next word has not been touched yet
      have hword : loadAt e n (combine e n f (List.range' lo k) rhs data) (lo + k) =
          loadAt e n data (lo + k) := by
        rw [loadAt, loadAt]
        congr 1
        apply List.ext_getElem?
        intro i
        by_cases hi : i < n
        · rw [List.getElem?_take_of_lt hi, List.getElem?_take_of_lt hi, List.getElem?_drop,
            List.getElem?_drop, ih (by omega), if_neg (by omega)]
        · rw [List.getElem?_eq_none (by rw [List.length_take]; omega),
            List.getElem?_eq_none (by rw [List.length_take]; omega)]
      have hslice : (((List.zipWith g data rhs).drop ((lo + k) * n)).take n).length = n := by
        rw [List.length_take, List.length_drop, List.length_zipWith]
        omega
      have hback := store_load e (((List.zipWith g data rhs).drop ((lo + k) * n)).take n)
      rw [hslice] at hback
      rw [combine_concat, hword, ← loadAt_zipWith h hlen (by omega), getElem?_storeAt hfits, loadAt,
        hback]
      by_cases hj : (lo + k) * n ≤ j ∧ j < (lo + k) * n + n
      · rw [if_pos hj, if_pos (by omega), List.getElem?_take_of_lt (by omega), List.getElem?_drop]
        congr 1
        omega
      · rw [if_neg hj, ih (by omega)]
        by_cases hin : lo * n ≤ j ∧ j < (lo + k) * n
        · rw [if_pos hin, if_pos (by omega)]
        · rw [if_neg hin, if_neg (by omega)]

end Combine

/-! ### Set bits -/

/-- How many of the `k` low bits are set. -/
def bitCount (k v : ℕ) : ℕ := (List.range k).countP fun j => v.testBit j

/-- How many bits of a block are set. -/
def popCount (bs : List UInt8) : ℕ := (bs.map fun b => bitCount 8 b.toNat).sum

/-- Counting in a range that is walked over in pieces of length `w`. -/
theorem countP_range_mul (w k : ℕ) (p : ℕ → Bool) :
    (List.range (w * k)).countP p =
      ((List.range k).map fun i => (List.range w).countP fun j => p (w * i + j)).sum := by
  induction k with
  | zero => rfl
  | succ k ih =>
      rw [Nat.mul_succ, List.range_add, List.countP_append, List.countP_map, ih, List.range_succ,
        List.map_append, List.sum_append, List.map_singleton, List.sum_singleton]
      rfl

theorem bitCount_ofLittle (bs : List UInt8) :
    bitCount (8 * bs.length) (ofLittle bs) = popCount bs := by
  induction bs with
  | nil => rfl
  | cons b bs ih =>
      have hlow : (List.range 8).countP (fun j => (ofLittle (b :: bs)).testBit j) =
          bitCount 8 b.toNat := by
        apply List.countP_congr
        intro j hj
        rw [testBit_ofLittle_cons, if_pos (List.mem_range.mp hj)]
      have hhigh : (List.range (8 * bs.length)).countP
          ((fun j => (ofLittle (b :: bs)).testBit j) ∘ fun j => 8 + j) =
            bitCount (8 * bs.length) (ofLittle bs) := by
        apply List.countP_congr
        intro j _
        rw [Function.comp_apply, testBit_ofLittle_cons, if_neg (by omega), Nat.add_sub_cancel_left]
      have hlen : 8 * (b :: bs).length = 8 + 8 * bs.length := by
        rw [List.length_cons, Nat.mul_succ, Nat.add_comm]
      rw [bitCount, hlen, List.range_add, List.countP_append, List.countP_map, hlow, hhigh, ih,
        popCount, popCount, List.map_cons, List.sum_cons]

/-- The byte order does not change the number of set bits. -/
theorem bitCount_load (e : Endian) (bs : List UInt8) :
    bitCount (8 * bs.length) (load e bs) = popCount bs := by
  cases e with
  | little => exact bitCount_ofLittle bs
  | big =>
      have hrev := bitCount_ofLittle bs.reverse
      rw [List.length_reverse] at hrev
      rw [load, hrev, popCount, List.map_reverse, List.sum_reverse, popCount]

theorem popCount_append (xs ys : List UInt8) :
    popCount (xs ++ ys) = popCount xs + popCount ys := by
  rw [popCount, List.map_append, List.sum_append, popCount, popCount]

/-- The width of the words does not change the number of set bits. -/
theorem sum_bitCount_loadAt (e : Endian) (n k : ℕ) {bs : List UInt8} (h : k * n ≤ bs.length) :
    ((List.range k).map fun i => bitCount (8 * n) (loadAt e n bs i)).sum =
      popCount (bs.take (k * n)) := by
  induction k with
  | zero =>
      rw [Nat.zero_mul, List.take_zero]
      rfl
  | succ k ih =>
      rw [Nat.succ_mul] at h
      have hword : ((bs.drop (k * n)).take n).length = n := by
        rw [List.length_take, List.length_drop]
        omega
      have hcount := bitCount_load e ((bs.drop (k * n)).take n)
      rw [hword] at hcount
      rw [List.range_succ, List.map_append, List.sum_append, ih (by omega), List.map_singleton,
        List.sum_singleton, loadAt, hcount, Nat.succ_mul, List.take_add, popCount_append]

end ByteWords
