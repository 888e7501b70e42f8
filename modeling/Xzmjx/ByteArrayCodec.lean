import Mathlib.Algebra.Group.Nat.Defs
import Xzmjx.ByteOrder
import Xzmjx.Varint
import Xzmjx.ByteArrayModel

/-!
# The typed codecs of the byte array

Every typed write hands the object representation of its value to `write`, and
every typed read fills an object by `read`. The codecs see the byte array as the
bytes between its position and its size: a write appends to them, a read takes
them from the front and throws when there are too few. Integers that are only
moved about are natural numbers below `256 ^ n`; `native` is the byte order of
the machine and `endian` is `m_endian`. Signed arithmetic wraps around. A write is
`none` if it stores past the end of its buffer `tmp`.
-/
namespace Xzmjx.ByteArrayCodec
open ByteOrder ByteArrayModel

abbrev Bytes := List UInt8

/-- A `std::string`, whose size is a `size_t`. -/
abbrev Text := { s : Bytes // s.length < 2 ^ 64 }

/-- `read(buf, size)`. -/
def read (size : ℕ) (bs : Bytes) : Except Fault ({ buf : Bytes // buf.length = size } × Bytes) :=
  if h : size ≤ bs.length then .ok (⟨bs.take size, by simp [h]⟩, bs.drop size)
  else .error (.outOfRange "not enough data to read")

/-- `EndianCastByType` on an integer of `n` bytes. -/
def endianCastByType (native : Endian) (n value : ℕ) (type : Endian) : ℕ :=
  if type = .little ∧ native = .big then swap n value
  else if type = .big ∧ native = .little then swap n value
  else value

section Codecs

variable (native endian : Endian)

/-! ### Fixed width -/

def writeFixed (n value : ℕ) : Bytes := store native n (endianCastByType native n value endian)

def readFixed (n : ℕ) (bs : Bytes) : Except Fault (ℕ × Bytes) := do
  let (ans, bs) ← read n bs
  pure (endianCastByType native n (load native ans) endian, bs)

/-- One byte has no order. -/
def writeFint8 (value : Int8) : Bytes := store native 1 value.toUInt8.toNat

def writeFuint8 (value : UInt8) : Bytes := store native 1 value.toNat

def writeFint16 (value : Int16) : Bytes := writeFixed native endian 2 value.toUInt16.toNat

def writeFuint16 (value : UInt16) : Bytes := writeFixed native endian 2 value.toNat

def writeFint32 (value : Int32) : Bytes := writeFixed native endian 4 value.toUInt32.toNat

def writeFuint32 (value : UInt32) : Bytes := writeFixed native endian 4 value.toNat

def writeFint64 (value : Int64) : Bytes := writeFixed native endian 8 value.toUInt64.toNat

def writeFuint64 (value : UInt64) : Bytes := writeFixed native endian 8 value.toNat

/-- A float is its bit pattern. -/
def writeFloat (value : UInt32) : Bytes := writeFuint32 native endian value

def writeDouble (value : UInt64) : Bytes := writeFuint64 native endian value

def readFuint8 (bs : Bytes) : Except Fault (UInt8 × Bytes) := do
  let (ans, bs) ← read 1 bs
  pure (UInt8.ofNat (load native ans), bs)

def readFint8 (bs : Bytes) : Except Fault (Int8 × Bytes) := do
  let (ans, bs) ← read 1 bs
  pure ((UInt8.ofNat (load native ans)).toInt8, bs)

def readFint16 (bs : Bytes) : Except Fault (Int16 × Bytes) := do
  let (ans, bs) ← readFixed native endian 2 bs
  pure ((UInt16.ofNat ans).toInt16, bs)

def readFuint16 (bs : Bytes) : Except Fault (UInt16 × Bytes) := do
  let (ans, bs) ← readFixed native endian 2 bs
  pure (UInt16.ofNat ans, bs)

def readFint32 (bs : Bytes) : Except Fault (Int32 × Bytes) := do
  let (ans, bs) ← readFixed native endian 4 bs
  pure ((UInt32.ofNat ans).toInt32, bs)

def readFuint32 (bs : Bytes) : Except Fault (UInt32 × Bytes) := do
  let (ans, bs) ← readFixed native endian 4 bs
  pure (UInt32.ofNat ans, bs)

def readFint64 (bs : Bytes) : Except Fault (Int64 × Bytes) := do
  let (ans, bs) ← readFixed native endian 8 bs
  pure ((UInt64.ofNat ans).toInt64, bs)

def readFuint64 (bs : Bytes) : Except Fault (UInt64 × Bytes) := do
  let (ans, bs) ← readFixed native endian 8 bs
  pure (UInt64.ofNat ans, bs)

def readFloat (bs : Bytes) : Except Fault (UInt32 × Bytes) := readFuint32 native endian bs

def readDouble (bs : Bytes) : Except Fault (UInt64 × Bytes) := readFuint64 native endian bs

/-! ### Variable width -/

def encodeZigzag64 (v : Int64) : UInt64 :=
  if v < 0 then (-v).toUInt64 * 2 - 1 else (v * 2).toUInt64

def decodeZigzag64 (v : UInt64) : Int64 := ((v >>> 1) ^^^ -(v &&& 1)).toInt64

/-- `tmp` has ten bytes. -/
def writeUint64 (value : UInt64) : Option Bytes := Varint.groups 10 value.toNat

def writeInt64 (value : Int64) : Option Bytes := writeUint64 (encodeZigzag64 value)

/-- The loop of `readUint64` from shift `i` on. -/
def readUint64From (i : ℕ) (ans : UInt64) (bs : Bytes) : Except Fault (UInt64 × Bytes) :=
  if i < 64 then do
    let (b, bs) ← readFuint8 native bs
    if b &&& 0x80 ≠ 0 then
      readUint64From (i + 7) (ans ||| (b &&& 0x7F).toUInt64 <<< UInt64.ofNat i) bs
    else pure (ans ||| b.toUInt64 <<< UInt64.ofNat i, bs)
  else pure (ans, bs)
termination_by 64 - i

def readUint64 (bs : Bytes) : Except Fault (UInt64 × Bytes) := readUint64From native 0 0 bs

def readInt64 (bs : Bytes) : Except Fault (Int64 × Bytes) := do
  let (ans, bs) ← readUint64 native bs
  pure (decodeZigzag64 ans, bs)

def encodeZigzag32 (v : Int32) : UInt32 :=
  if v < 0 then (-v).toUInt32 * 2 - 1 else (v * 2).toUInt32

def decodeZigzag32 (v : UInt32) : Int32 := ((v >>> 1) ^^^ -(v &&& 1)).toInt32

/-- `tmp` has five bytes. -/
def writeUint32 (value : UInt32) : Option Bytes := Varint.groups 5 value.toNat

def writeInt32 (value : Int32) : Option Bytes := writeUint32 (encodeZigzag32 value)

/-- The loop of `readUint32` from shift `i` on. Its two branches are those of
`readUint64` exchanged: a byte with its top bit set ends it. -/
def readUint32From (i : ℕ) (ans : UInt32) (bs : Bytes) : Except Fault (UInt32 × Bytes) :=
  if i < 32 then do
    let (b, bs) ← readFuint8 native bs
    if b &&& 0x80 ≠ 0 then pure (ans ||| (b &&& 0x7F).toUInt32 <<< UInt32.ofNat i, bs)
    else readUint32From (i + 7) (ans ||| b.toUInt32 <<< UInt32.ofNat i) bs
  else pure (ans, bs)
termination_by 32 - i

def readUint32 (bs : Bytes) : Except Fault (UInt32 × Bytes) := readUint32From native 0 0 bs

def readInt32 (bs : Bytes) : Except Fault (Int32 × Bytes) := do
  let (ans, bs) ← readUint32 native bs
  pure (decodeZigzag32 ans, bs)

/-! ### Strings -/

def writeStringVint (s : Text) : Option Bytes :=
  (writeUint64 (UInt64.ofNat s.val.length)).map fun size => size ++ s.val

def readStringVint (bs : Bytes) : Except Fault (Text × Bytes) := do
  let (len, bs) ← readUint64 native bs
  let (s, bs) ← read len.toNat bs
  pure (⟨s.val, s.property.trans_lt len.toNat_lt⟩, bs)

/-- The string is resized to `len` and filled. A length beyond `max_size()` throws in `resize`
already, where the model answers as `read` would. -/
def readText (len : UInt64) (bs : Bytes) : Except Fault (Text × Bytes) := do
  let (s, bs) ← read len.toNat bs
  pure (⟨s.val, s.property.trans_lt len.toNat_lt⟩, bs)

def writeStringF16 (s : Text) : Bytes :=
  writeFuint16 native endian (UInt16.ofNat s.val.length) ++ s.val

def writeStringF32 (s : Text) : Bytes :=
  writeFuint32 native endian (UInt32.ofNat s.val.length) ++ s.val

def writeStringF64 (s : Text) : Bytes :=
  writeFuint64 native endian (UInt64.ofNat s.val.length) ++ s.val

/-- The length is read as signed and converted to `uint16_t`. -/
def readStringF16 (bs : Bytes) : Except Fault (Text × Bytes) := do
  let (len, bs) ← readFint16 native endian bs
  readText len.toUInt16.toUInt64 bs

def readStringF32 (bs : Bytes) : Except Fault (Text × Bytes) := do
  let (len, bs) ← readFint32 native endian bs
  readText len.toUInt32.toUInt64 bs

/-- The length is read by `readFint16` here too, and extended with its sign. -/
def readStringF64 (bs : Bytes) : Except Fault (Text × Bytes) := do
  let (len, bs) ← readFint16 native endian bs
  readText len.toInt64.toUInt64 bs

end Codecs

/-! ### Records -/

/-- The typed writes and reads that come in pairs. -/
inductive Kind
  | fint8
  | fuint8
  | fint16
  | fuint16
  | fint32
  | fuint32
  | fint64
  | fuint64
  | float
  | double
  | int64
  | uint64
  | stringVint
  deriving DecidableEq, Repr

/-- The type of the values; floating point values are bit patterns. -/
def Kind.type : Kind → Type
  | .fint8 => Int8
  | .fuint8 => UInt8
  | .fint16 => Int16
  | .fuint16 => UInt16
  | .fint32 => Int32
  | .fuint32 | .float => UInt32
  | .fint64 | .int64 => Int64
  | .fuint64 | .double | .uint64 => UInt64
  | .stringVint => Text

/-- A value together with the write it is given to. -/
abbrev Value := Σ k : Kind, k.type

/-- The typed write of a kind. -/
def Kind.write (native endian : Endian) : (k : Kind) → k.type → Option Bytes
  | .fint8, v => some (writeFint8 native v)
  | .fuint8, v => some (writeFuint8 native v)
  | .fint16, v => some (writeFint16 native endian v)
  | .fuint16, v => some (writeFuint16 native endian v)
  | .fint32, v => some (writeFint32 native endian v)
  | .fuint32, v => some (writeFuint32 native endian v)
  | .fint64, v => some (writeFint64 native endian v)
  | .fuint64, v => some (writeFuint64 native endian v)
  | .float, v => some (writeFloat native endian v)
  | .double, v => some (writeDouble native endian v)
  | .int64, v => writeInt64 v
  | .uint64, v => writeUint64 v
  | .stringVint, v => writeStringVint v

/-- The typed read of a kind. -/
def Kind.read (native endian : Endian) : (k : Kind) → Bytes → Except Fault (k.type × Bytes)
  | .fint8, bs => readFint8 native bs
  | .fuint8, bs => readFuint8 native bs
  | .fint16, bs => readFint16 native endian bs
  | .fuint16, bs => readFuint16 native endian bs
  | .fint32, bs => readFint32 native endian bs
  | .fuint32, bs => readFuint32 native endian bs
  | .fint64, bs => readFint64 native endian bs
  | .fuint64, bs => readFuint64 native endian bs
  | .float, bs => readFloat native endian bs
  | .double, bs => readDouble native endian bs
  | .int64, bs => readInt64 native bs
  | .uint64, bs => readUint64 native bs
  | .stringVint, bs => readStringVint native bs

/-- The bytes that a sequence of typed writes appends. -/
def writeAll (native endian : Endian) : List Value → Option Bytes
  | [] => some []
  | ⟨k, v⟩ :: vs => do
      let bs ← k.write native endian v
      let rest ← writeAll native endian vs
      pure (bs ++ rest)

/-- What a sequence of typed reads returns, and the bytes it leaves. -/
def readAll (native endian : Endian) : List Kind → Bytes → Except Fault (List Value × Bytes)
  | [], bs => pure ([], bs)
  | k :: ks, bs => do
      let (v, bs) ← k.read native endian bs
      let (vs, bs) ← readAll native endian ks bs
      pure (⟨k, v⟩ :: vs, bs)

end Xzmjx.ByteArrayCodec
