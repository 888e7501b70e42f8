import Xzmjx.ByteWords

/-!
# Bitmap

The words lie in one block of bytes, which the operations read both in words of the base type
and, through a cast of the pointer, in words of 64 bits. A bitmap carries the invariant that
its block holds the size rounded up to whole words.
-/
namespace Xzmjx
open ByteOrder ByteWords

/-- The word types that `BITMAP_TYPE` selects from. -/
inductive BaseType
  | uint8
  | uint16
  | uint32
  | uint64
  deriving DecidableEq, Repr

namespace BaseType

/-- `sizeof(base_type)`. -/
def sizeof : BaseType → ℕ
  | uint8 => 1
  | uint16 => 2
  | uint32 => 4
  | uint64 => 8

def VALUE_SIZE (t : BaseType) : ℕ := t.sizeof * 8

def U64_DIV_BASE (t : BaseType) : ℕ := 8 / t.sizeof

def U64_VALUE_SIZE (t : BaseType) : ℕ := t.VALUE_SIZE * t.U64_DIV_BASE

/-- `POS[i]`. -/
def POS (t : BaseType) (i : ℕ) : ℕ := (1 <<< i) % 2 ^ t.VALUE_SIZE

/-- `NPOS[i]`. -/
def NPOS (t : BaseType) (i : ℕ) : ℕ := complement t.sizeof (t.POS i)

theorem sizeof_pos (t : BaseType) : 0 < t.sizeof := by
  cases t <;> decide

theorem VALUE_SIZE_pos (t : BaseType) : 0 < t.VALUE_SIZE := Nat.mul_pos t.sizeof_pos (by decide)

theorem VALUE_SIZE_le (t : BaseType) : t.VALUE_SIZE ≤ 64 := by
  cases t <;> decide

@[simp] theorem DIV_mul_sizeof (t : BaseType) : t.U64_DIV_BASE * t.sizeof = 8 := by
  cases t <;> rfl

@[simp] theorem U64_VALUE_SIZE_eq (t : BaseType) : t.U64_VALUE_SIZE = 64 := by
  cases t <;> rfl

end BaseType

open BaseType

/-- `m_size`, `m_dataSize` and the block at `m_data`, with no bytes where that is null. -/
structure Bitmap (t : BaseType) where
  size : ℕ
  dataSize : ℕ
  data : List UInt8
  size_lt : size < 2 ^ 32
  dataSize_eq : dataSize = (size + (t.VALUE_SIZE - 1)) / t.VALUE_SIZE
  data_length : data.length = dataSize * t.sizeof
  deriving DecidableEq, Repr

namespace Bitmap

inductive Exception
  | out_of_range (what : String)
  | logic_error (what : String)
  deriving DecidableEq, Repr

variable {t : BaseType}

/-- `Bitmap(size, def)`. The quotient of doubles whose ceiling it takes is exact. -/
def new (t : BaseType) (size : ℕ) (fill : UInt8) (h : size < 2 ^ 32) : Bitmap t where
  size := size
  dataSize := (size + (t.VALUE_SIZE - 1)) / t.VALUE_SIZE
  data := List.replicate ((size + (t.VALUE_SIZE - 1)) / t.VALUE_SIZE * t.sizeof) fill
  size_lt := h
  dataSize_eq := rfl
  data_length := List.length_replicate

/-- `Bitmap(const Bitmap&)`: both sizes and the bytes of the block. -/
def copy (rhs : Bitmap t) : Bitmap t where
  size := rhs.size
  dataSize := rhs.dataSize
  data := rhs.data.take (rhs.dataSize * t.sizeof)
  size_lt := rhs.size_lt
  dataSize_eq := rhs.dataSize_eq
  data_length := by
    rw [List.length_take, rhs.data_length]
    exact Nat.min_self _

/-- `m_data[i]`. -/
def word (e : Endian) (b : Bitmap t) (i : ℕ) : ℕ := loadAt e t.sizeof b.data i

def get (e : Endian) (b : Bitmap t) (idx : ℕ) : Except Exception Bool :=
  let cur := idx / t.VALUE_SIZE
  let pos := idx % t.VALUE_SIZE
  if b.dataSize ≤ cur then .error (.out_of_range "idx out of range")
  else .ok (b.word e cur &&& t.POS pos != 0)

/-- The block stays within its length. -/
theorem word_fits (b : Bitmap t) {cur : ℕ} (h : cur < b.dataSize) :
    cur * t.sizeof + t.sizeof ≤ b.data.length :=
  add_le_of_mul_le h (le_of_eq b.data_length.symm)

def set (e : Endian) (b : Bitmap t) (idx : ℕ) (v : Bool) : Except Exception (Bitmap t) :=
  let cur := idx / t.VALUE_SIZE
  let pos := idx % t.VALUE_SIZE
  if h : b.dataSize ≤ cur then .error (.out_of_range "idx out of range")
  else
    let value := if v then b.word e cur ||| t.POS pos else b.word e cur &&& t.NPOS pos
    .ok { b with
      data := storeAt e t.sizeof b.data cur value
      data_length := (length_storeAt (b.word_fits (not_le.mp h))).trans b.data_length }

/-! ### The two loops -/

/-- `maxSize`. -/
def maxSize (b : Bitmap t) : ℕ := b.size / t.U64_VALUE_SIZE

/-- The words of 64 bits that the first loop goes over. -/
def fastIndices (b : Bitmap t) : List ℕ := List.range' 0 b.maxSize

/-- The words that the second loop goes over. -/
def tailIndices (b : Bitmap t) : List ℕ :=
  List.range' (b.maxSize * t.U64_DIV_BASE) (b.dataSize - b.maxSize * t.U64_DIV_BASE)

theorem size_le (b : Bitmap t) : b.size ≤ b.dataSize * t.VALUE_SIZE := by
  have hpos := t.VALUE_SIZE_pos
  have hdiv := Nat.div_add_mod (b.size + (t.VALUE_SIZE - 1)) t.VALUE_SIZE
  have hmod := Nat.mod_lt (b.size + (t.VALUE_SIZE - 1)) hpos
  rw [← b.dataSize_eq, Nat.mul_comm] at hdiv
  omega

theorem maxSize_fits (b : Bitmap t) : b.maxSize * 8 ≤ b.data.length := by
  have hsize := b.size_le
  have hbits : b.data.length * 8 = b.dataSize * t.VALUE_SIZE := by
    rw [b.data_length, VALUE_SIZE, Nat.mul_assoc]
  rw [maxSize, U64_VALUE_SIZE_eq]
  omega

/-- The fast loop stays within the words. -/
theorem maxSize_le (b : Bitmap t) : b.maxSize * t.U64_DIV_BASE ≤ b.dataSize := by
  have hfits := b.maxSize_fits
  rw [b.data_length, ← t.DIV_mul_sizeof, ← Nat.mul_assoc] at hfits
  exact Nat.le_of_mul_le_mul_right hfits t.sizeof_pos

/-- The loop over words of 64 bits, then the loop over the remaining words. -/
def walk (e : Endian) (f : ℕ → ℕ → ℕ → ℕ) (b : Bitmap t) (rhs : List UInt8) : List UInt8 :=
  combine e t.sizeof f b.tailIndices rhs (combine e 8 f b.fastIndices rhs b.data)

theorem length_walk (e : Endian) (f : ℕ → ℕ → ℕ → ℕ) (b : Bitmap t) (rhs : List UInt8) :
    (b.walk e f rhs).length = b.data.length := by
  have hfast : (combine e 8 f b.fastIndices rhs b.data).length = b.data.length :=
    length_combine 0 b.maxSize (by rw [Nat.zero_add]; exact b.maxSize_fits)
  rw [walk, tailIndices, length_combine _ _ (by
    rw [Nat.add_sub_cancel' b.maxSize_le, hfast, b.data_length]), hfast]

/-- What the walk leaves behind. -/
def walked (e : Endian) (f : ℕ → ℕ → ℕ → ℕ) (b : Bitmap t) (rhs : List UInt8) : Bitmap t :=
  { b with
    data := b.walk e f rhs
    data_length := (b.length_walk e f rhs).trans b.data_length }

/-- `operator&=`. -/
def andAssign (e : Endian) (b rhs : Bitmap t) : Except Exception (Bitmap t) :=
  if b.size ≠ rhs.size then .error (.logic_error "size must be equal")
  else .ok (b.walked e (fun _ x y => x &&& y) rhs.data)

/-- `operator|=`. -/
def orAssign (e : Endian) (b rhs : Bitmap t) : Except Exception (Bitmap t) :=
  if b.size ≠ rhs.size then .error (.logic_error "size must be equal")
  else .ok (b.walked e (fun _ x y => x ||| y) rhs.data)

/-- `operator&`. -/
def and (e : Endian) (b rhs : Bitmap t) : Except Exception (Bitmap t) := andAssign e b.copy rhs

/-- `operator|`. -/
def or (e : Endian) (b rhs : Bitmap t) : Except Exception (Bitmap t) := orAssign e b.copy rhs

/-- `operator~`, which has no second operand. -/
def not (e : Endian) (b : Bitmap t) : Bitmap t :=
  b.walked e (fun n x _ => complement n x) b.data

/-! ### Comparing and counting -/

/-- `operator==`. An object and itself have the same sizes and bytes. -/
def equal (b rhs : Bitmap t) : Bool :=
  b.size == rhs.size && b.dataSize == rhs.dataSize &&
    b.data.take (b.dataSize * t.sizeof) == rhs.data.take (b.dataSize * t.sizeof)

/-- `any`. Its test for a null block agrees with its loop over no words. -/
def any (e : Endian) (b : Bitmap t) : Bool :=
  if b.data.isEmpty then false else (List.range b.dataSize).any fun i => b.word e i != 0

/-- `countBits`, the sum of two calls of `__builtin_popcount`. -/
def countBits (v : ℕ) : ℕ := bitCount 32 (v &&& 0xFFFFFFFF) + bitCount 32 (v >>> 32)

/-- The variables of `getCount`. -/
structure Counter where
  count : ℕ
  cur_pos : ℕ
  deriving DecidableEq, Repr

/-- A round of the loop over words of 64 bits. -/
def countGroup (e : Endian) (b : Bitmap t) (c : Counter) (i : ℕ) : Counter where
  count := (c.count + countBits (loadAt e 8 b.data i)) % 2 ^ 32
  cur_pos := (c.cur_pos + t.U64_VALUE_SIZE) % 2 ^ 32

/-- The loop over the bits of the word `tmp`, with `k` of them left from bit `n` on. -/
def countWord (b : Bitmap t) (tmp : ℕ) : ℕ → ℕ → Counter → Counter
  | 0, _, c => c
  | k + 1, n, c =>
      if c.cur_pos < b.size then
        countWord b tmp k (n + 1)
          ⟨if tmp &&& t.POS n ≠ 0 then (c.count + 1) % 2 ^ 32 else c.count,
            (c.cur_pos + 1) % 2 ^ 32⟩
      else c

/-- A round of the loop over the remaining words. -/
def countTail (e : Endian) (b : Bitmap t) (c : Counter) (i : ℕ) : Counter :=
  let tmp := b.word e i
  if tmp ≠ 0 then countWord b tmp t.VALUE_SIZE 0 c
  else { c with cur_pos := (c.cur_pos + t.VALUE_SIZE) % 2 ^ 32 }

def getCount (e : Endian) (b : Bitmap t) : ℕ :=
  let len := b.dataSize / t.U64_DIV_BASE
  let c := (List.range' 0 len).foldl (b.countGroup e) ⟨0, 0⟩
  ((List.range' (len * t.U64_DIV_BASE) (b.dataSize - len * t.U64_DIV_BASE)).foldl
    (b.countTail e) c).count

/-- The bitmaps that a program can come by. -/
inductive Reachable (e : Endian) : Bitmap t → Prop
  | new {size : ℕ} {fill : UInt8} (h : size < 2 ^ 32) : Reachable e (new t size fill h)
  | set {b b' : Bitmap t} {idx : ℕ} {v : Bool} (hb : Reachable e b)
      (h : b.set e idx v = .ok b') : Reachable e b'
  | copy {b : Bitmap t} (hb : Reachable e b) : Reachable e b.copy
  | andAssign {b rhs b' : Bitmap t} (hb : Reachable e b) (hrhs : Reachable e rhs)
      (h : b.andAssign e rhs = .ok b') : Reachable e b'
  | orAssign {b rhs b' : Bitmap t} (hb : Reachable e b) (hrhs : Reachable e rhs)
      (h : b.orAssign e rhs = .ok b') : Reachable e b'
  | not {b : Bitmap t} (hb : Reachable e b) : Reachable e (b.not e)

end Bitmap

end Xzmjx
