import Mathlib.Algebra.Order.Ring.Int
import Xzmjx.ByteArrayBuffers

/-!
# Streams

`SocketStream` over the two directions of a connected socket, and the four loops
of `Stream` that transfer a fixed number of bytes. Incoming data arrives in
segments: one read delivers bytes of the first segment only, an empty segment is
a read that fails, and after the last one the peer has closed. Outgoing data is
accepted in portions, one for each write; a portion of zero is a write that
fails, and after the last one every write is accepted whole.

A destination is an offset into an object, and a store outside the object is a
fault; so is reading past the end of a source or of a vector of buffers. One
transfer is small enough for an `int`.
-/
namespace Xzmjx.StreamModel
open BlockList ByteArrayModel

abbrev Bytes := List UInt8

/-- How a call can fail to return. -/
inductive Fault
  | outOfBounds
  | byteArray (f : ByteArrayModel.Fault)
  deriving DecidableEq, Repr

/-- A `size_t` converted to `int`. -/
def toInt (n : ℕ) : ℤ := Int.bmod n (2 ^ 32)

structure Stream where
  incoming : List Bytes
  accepts : List ℕ := []
  sent : Bytes := []
  connected : Bool := true
  deriving DecidableEq, Repr

/-- Store `got` at offset `off` of an object. -/
def storeAt (mem : Bytes) (off : ℕ) (got : Bytes) : Except Fault Bytes :=
  if off + got.length ≤ mem.length then .ok (overlay mem off got) else .error .outOfBounds

namespace Stream

/-- `recv` with room for `length` bytes: its result, and the bytes it delivers. -/
def recv (s : Stream) (length : ℕ) : ℤ × Bytes × Stream :=
  match s.incoming with
  | [] => (0, [], s)
  | [] :: xs => (-1, [], { s with incoming := xs })
  | x :: xs =>
      ((x.take length).length, x.take length,
        { s with incoming := if x.drop length = [] then xs else x.drop length :: xs })

/-- `send` of the given bytes. -/
def send (s : Stream) (bytes : Bytes) : ℤ × Stream :=
  match s.accepts with
  | [] => (bytes.length, { s with sent := s.sent ++ bytes })
  | 0 :: ks => (-1, { s with accepts := ks })
  | k :: ks =>
      ((bytes.take k).length, { s with accepts := ks, sent := s.sent ++ bytes.take k })

def close (s : Stream) : Stream := { s with connected := false }

/-! ### SocketStream -/

/-- `read(buf, length)`; storing what it delivers is left to the caller. -/
def read (s : Stream) (length : ℕ) : ℤ × Bytes × Stream :=
  if s.connected then s.recv length else (-1, [], s)

/-- `read(ba, length)`. -/
def readBa (s : Stream) (ba : ByteArrayModel.ByteArray) (length : ℕ) :
    Except Fault (ℤ × ByteArrayModel.ByteArray × Stream) :=
  if s.connected then
    match ba.getWriteBuffers length with
    | .error e => .error (.byteArray e)
    | .ok (iov, ba) =>
        let (rt, got, s) := s.recv (total iov)
        let ba := { ba with nodes := scatter ba.nodes iov got }
        if 0 < rt then
          match ba.setPosition (ba.position + rt.toNat) with
          | .error e => .error (.byteArray e)
          | .ok ba => .ok (rt, ba, s)
        else .ok (rt, ba, s)
  else .ok (-1, ba, s)

/-- `write(buf, length)`. -/
def write (s : Stream) (buf : Bytes) (length : ℕ) : Except Fault (ℤ × Stream) :=
  if s.connected then
    if buf.length < length then .error .outOfBounds else .ok (s.send (buf.take length))
  else .ok (-1, s)

/-- `write(ba, length)`, which gives `sendmsg` the number of bytes for the number of
buffers. A byte that was never written goes out as `junk`. -/
def writeBa (s : Stream) (ba : ByteArrayModel.ByteArray) (length : ℕ) (junk : UInt8) :
    Except Fault (ℤ × ByteArrayModel.ByteArray × Stream) :=
  if s.connected then
    match ba.getReadBuffers length with
    | .error e => .error (.byteArray e)
    | .ok iov =>
        if iov.length < length then .error .outOfBounds
        else
          let cells := gather ba.nodes (iov.take length)
          let (rt, s) := s.send (cells.map fun c => c.getD junk)
          if 0 < rt then
            match ba.setPosition (ba.position + rt.toNat) with
            | .error e => .error (.byteArray e)
            | .ok ba => .ok (rt, ba, s)
          else .ok (rt, ba, s)
  else .ok (-1, ba, s)

/-! ### Transfers of a fixed size -/

/-- The loop of `readFixedSize(buf, length)`, where `buf` is offset `off` of `mem`. Every
read is given `buf` itself. -/
def readFixedSizeFrom (mem : Bytes) (off length : ℕ) (left : ℤ) (s : Stream) :
    Except Fault (ℤ × Bytes × Stream) :=
  if 0 < left then
    match s.read left.toNat with
    | (rt, got, s) =>
        if rt ≤ 0 then .ok (rt, mem, s)
        else
          match storeAt mem off got with
          | .error e => .error e
          | .ok mem => readFixedSizeFrom mem off length (left - rt) s
  else .ok (toInt length, mem, s)
termination_by left.toNat

def readFixedSize (s : Stream) (mem : Bytes) (off length : ℕ) :
    Except Fault (ℤ × Bytes × Stream) :=
  readFixedSizeFrom mem off length (toInt length) s

/-- The loop of `readFixedSize(ba, length)`. Every read asks for `length` bytes. -/
def readFixedSizeBaFrom (ba : ByteArrayModel.ByteArray) (length : ℕ) (left : ℤ) (s : Stream) :
    Except Fault (ℤ × ByteArrayModel.ByteArray × Stream) :=
  if 0 < left then
    match s.readBa ba length with
    | .error e => .error e
    | .ok (rt, ba, s) =>
        if rt ≤ 0 then .ok (rt, ba, s) else readFixedSizeBaFrom ba length (left - rt) s
  else .ok (toInt length, ba, s)
termination_by left.toNat

def readFixedSizeBa (s : Stream) (ba : ByteArrayModel.ByteArray) (length : ℕ) :
    Except Fault (ℤ × ByteArrayModel.ByteArray × Stream) :=
  readFixedSizeBaFrom ba length (toInt length) s

/-- The loop of `writeFixedSize(buf, length)`. Every write is given the whole buffer. -/
def writeFixedSizeFrom (buf : Bytes) (length : ℕ) (left : ℤ) (s : Stream) :
    Except Fault (ℤ × Stream) :=
  if 0 < left then
    match s.write buf length with
    | .error e => .error e
    | .ok (rt, s) => if rt ≤ 0 then .ok (rt, s) else writeFixedSizeFrom buf length (left - rt) s
  else .ok (toInt length, s)
termination_by left.toNat

def writeFixedSize (s : Stream) (buf : Bytes) (length : ℕ) : Except Fault (ℤ × Stream) :=
  writeFixedSizeFrom buf length (toInt length) s

/-- The loop of `writeFixedSize(ba, length)`. -/
def writeFixedSizeBaFrom (ba : ByteArrayModel.ByteArray) (length : ℕ) (junk : UInt8) (left : ℤ)
    (s : Stream) : Except Fault (ℤ × ByteArrayModel.ByteArray × Stream) :=
  if 0 < left then
    match s.writeBa ba length junk with
    | .error e => .error e
    | .ok (rt, ba, s) =>
        if rt ≤ 0 then .ok (rt, ba, s) else writeFixedSizeBaFrom ba length junk (left - rt) s
  else .ok (toInt length, ba, s)
termination_by left.toNat

def writeFixedSizeBa (s : Stream) (ba : ByteArrayModel.ByteArray) (length : ℕ) (junk : UInt8) :
    Except Fault (ℤ × ByteArrayModel.ByteArray × Stream) :=
  writeFixedSizeBaFrom ba length junk (toInt length) s

end Stream

end Xzmjx.StreamModel
