import Mathlib.Algebra.Group.Nat.Defs
import Mathlib.Tactic.Common
import Mathlib.Tactic.Ring

/-!
# Byte order

An unsigned integer of `n` bytes is a natural number, and its object
representation is the list of its bytes in the order of the addresses. `store`
and `load` go between the two under either order, and `swap` reverses the bytes
of the integer itself.
-/
namespace ByteOrder

inductive Endian
  | little
  | big
  deriving DecidableEq, Repr

/-- The `n` low bytes, the lowest first. -/
def toLittle : ℕ → ℕ → List UInt8
  | 0, _ => []
  | n + 1, v => UInt8.ofNat v :: toLittle n (v / 256)

def ofLittle : List UInt8 → ℕ
  | [] => 0
  | b :: bs => b.toNat + 256 * ofLittle bs

/-- The object representation of an integer of `n` bytes. -/
def store : Endian → ℕ → ℕ → List UInt8
  | .little, n, v => toLittle n v
  | .big, n, v => (toLittle n v).reverse

/-- The integer with the given object representation. -/
def load : Endian → List UInt8 → ℕ
  | .little, bs => ofLittle bs
  | .big, bs => ofLittle bs.reverse

/-- The integer whose bytes are those of `v` in reverse. -/
def swap (n v : ℕ) : ℕ := ofLittle (toLittle n v).reverse

@[simp] theorem length_toLittle (n v : ℕ) : (toLittle n v).length = n := by
  induction n generalizing v with
  | zero => rfl
  | succ n ih => simp [toLittle, ih]

@[simp] theorem length_store (e : Endian) (n v : ℕ) : (store e n v).length = n := by
  cases e <;> simp [store]

theorem ofLittle_lt (bs : List UInt8) : ofLittle bs < 256 ^ bs.length := by
  induction bs with
  | nil => simp [ofLittle]
  | cons b bs ih =>
      have hb := b.toNat_lt
      simp only [ofLittle, List.length_cons, pow_succ]
      omega

theorem load_lt (e : Endian) (bs : List UInt8) : load e bs < 256 ^ bs.length := by
  cases e with
  | little => exact ofLittle_lt bs
  | big => simpa [load] using ofLittle_lt bs.reverse

theorem ofLittle_toLittle {n v : ℕ} (h : v < 256 ^ n) : ofLittle (toLittle n v) = v := by
  induction n generalizing v with
  | zero =>
      have hv : v = 0 := by simpa using h
      simp [toLittle, ofLittle, hv]
  | succ n ih =>
      have hdiv : v / 256 < 256 ^ n := by
        rw [pow_succ] at h
        omega
      simp only [toLittle, ofLittle, ih hdiv, UInt8.toNat_ofNat']
      omega

theorem toLittle_ofLittle (bs : List UInt8) : toLittle bs.length (ofLittle bs) = bs := by
  induction bs with
  | nil => rfl
  | cons b bs ih =>
      have hb := b.toNat_lt
      have hlow : UInt8.ofNat (b.toNat + 256 * ofLittle bs) = b := by
        apply UInt8.toNat_inj.mp
        rw [UInt8.toNat_ofNat']
        omega
      have hhigh : (b.toNat + 256 * ofLittle bs) / 256 = ofLittle bs := by omega
      simp only [ofLittle, List.length_cons, toLittle, hlow, hhigh, ih]

theorem load_store (e : Endian) {n v : ℕ} (h : v < 256 ^ n) : load e (store e n v) = v := by
  cases e with
  | little => exact ofLittle_toLittle h
  | big =>
      simp only [load, store, List.reverse_reverse]
      exact ofLittle_toLittle h

theorem swap_lt (n v : ℕ) : swap n v < 256 ^ n := by
  simpa [swap] using ofLittle_lt (toLittle n v).reverse

theorem toLittle_swap (n v : ℕ) : toLittle n (swap n v) = (toLittle n v).reverse := by
  have h := toLittle_ofLittle (toLittle n v).reverse
  rwa [List.length_reverse, length_toLittle] at h

theorem swap_swap {n v : ℕ} (h : v < 256 ^ n) : swap n (swap n v) = v := by
  rw [swap, toLittle_swap, List.reverse_reverse, ofLittle_toLittle h]

/-- The representation of a swapped integer is the one under the other order. -/
theorem store_swap (n v : ℕ) :
    store .little n (swap n v) = store .big n v ∧ store .big n (swap n v) = store .little n v := by
  simp [store, toLittle_swap]

end ByteOrder
