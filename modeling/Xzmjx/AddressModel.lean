import Xzmjx.FallibleCalls
import Xzmjx.WebSocketModel

/-!
# Socket addresses

`sockaddr_in` and `sockaddr_in6` with the subnet functions over them. A shift by the width of
`int`, an overflow of `int` and an index behind `s6_addr` are faults. A returned pointer is
null where the option is `none`. `native` is the byte order of the machine.
-/
namespace Xzmjx.AddressModel
open ByteOrder FallibleCalls
open StreamModel (toInt)
open WebSocketModel (endianCastOnLittle)

def AF_INET : UInt16 := 2
def AF_INET6 : UInt16 := 10

inductive Fault
  | shiftTooWide
  | signedOverflow
  | indexOutOfRange
  deriving DecidableEq, Repr

/-- `1 << amount` in `int`: the value that is congruent to the power of two. -/
def shiftedOne (amount : ℕ) : Except Fault ℤ :=
  if 32 ≤ amount then .error .shiftTooWide else .ok (toInt (2 ^ amount))

/-- `v - 1` in `int`. -/
def minusOne (v : ℤ) : Except Fault ℤ :=
  if v - 1 < -2 ^ 31 then .error .signedOverflow else .ok (v - 1)

/-- `CreateMask<T>` for the unsigned type of `w` bits. The amount is a `size_t`. -/
def createMask (w : ℕ) (bits : UInt32) : Except Fault (BitVec w) :=
  shiftedOne ((w + (2 ^ 64 - bits.toNat)) % 2 ^ 64) >>= fun one =>
  minusOne one >>= fun mask => .ok (BitVec.ofInt w mask)

/-- `EndianCastOnLittle<uint32_t>`. -/
def endianCast32 (native : Endian) (x : UInt32) : UInt32 :=
  UInt32.ofNat (endianCastOnLittle native 4 x.toNat)

/-- `EndianCastOnLittle<uint16_t>`. -/
def endianCast16 (native : Endian) (x : UInt16) : UInt16 :=
  UInt16.ofNat (endianCastOnLittle native 2 x.toNat)

/-! ### IPv4 -/

/-- The `sockaddr_in` of an `IPv4Address`. -/
structure IPv4Address where
  sin_family : UInt16
  sin_port : UInt16
  s_addr : UInt32
  sin_zero : Vector UInt8 8

namespace IPv4Address

/-- The object after `memset`. -/
def zeroed : IPv4Address := ⟨0, 0, 0, Vector.replicate 8 0⟩

def broadcastAddress (native : Endian) (a : IPv4Address) (prefix_len : UInt32) :
    Except Fault (Option IPv4Address) :=
  if 32 < prefix_len then .ok none
  else
    createMask 32 prefix_len >>= fun ipv4_mask =>
    .ok (some { a with s_addr := a.s_addr ||| endianCast32 native (.ofBitVec ipv4_mask) })

def networkAddress (native : Endian) (a : IPv4Address) (prefix_len : UInt32) :
    Except Fault (Option IPv4Address) :=
  if 32 < prefix_len then .ok none
  else
    createMask 32 prefix_len >>= fun ipv4_mask =>
    .ok (some { a with s_addr := a.s_addr &&& ~~~endianCast32 native (.ofBitVec ipv4_mask) })

/-- `subnetMask`, which does not look at the length. -/
def subnetMask (native : Endian) (prefix_len : UInt32) : Except Fault (Option IPv4Address) :=
  createMask 32 prefix_len >>= fun ipv4_mask =>
  .ok (some { zeroed with
    s_addr := ~~~endianCast32 native (.ofBitVec ipv4_mask)
    sin_family := AF_INET })

/-- The address in host order. -/
def host (native : Endian) (a : IPv4Address) : BitVec 32 := (endianCast32 native a.s_addr).toBitVec

end IPv4Address

/-! ### IPv6 -/

/-- The `sockaddr_in6` of an `IPv6Address`. -/
structure IPv6Address where
  sin6_family : UInt16
  sin6_port : UInt16
  sin6_flowinfo : UInt32
  s6_addr : Vector UInt8 16
  sin6_scope_id : UInt32

/-- A change of the byte at an index of `s6_addr`. -/
def modifyAt (bytes : Vector UInt8 16) (i : ℕ) (f : UInt8 → UInt8) :
    Except Fault (Vector UInt8 16) :=
  if h : i < 16 then .ok (bytes.set i (f bytes[i])) else .error .indexOutOfRange

/-- The loop that stores `v` at the indices from `lo` on and below `hi`. -/
def fill (v : UInt8) (lo hi : ℕ) (bytes : Vector UInt8 16) : Except Fault (Vector UInt8 16) :=
  (List.range' lo (hi - lo)).foldlM (fun bytes i => modifyAt bytes i fun _ => v) bytes

namespace IPv6Address

/-- `IPv6Address()`. -/
def zeroed : IPv6Address := ⟨AF_INET6, 0, 0, Vector.replicate 16 0, 0⟩

def broadcastAddress (a : IPv6Address) (prefix_len : UInt32) : Except Fault (Option IPv6Address) :=
  createMask 8 (prefix_len % 8) >>= fun mask =>
  modifyAt a.s6_addr (prefix_len.toNat / 8) (fun b => b ||| .ofBitVec mask) >>= fun bytes =>
  fill 0xff (prefix_len.toNat / 8 + 1) 16 bytes >>= fun bytes =>
  .ok (some { a with s6_addr := bytes })

def networkAddress (a : IPv6Address) (prefix_len : UInt32) : Except Fault (Option IPv6Address) :=
  createMask 8 (prefix_len % 8) >>= fun mask =>
  modifyAt a.s6_addr (prefix_len.toNat / 8) (fun b => b &&& ~~~.ofBitVec mask) >>= fun bytes =>
  fill 0x00 (prefix_len.toNat / 8 + 1) 16 bytes >>= fun bytes =>
  .ok (some { a with s6_addr := bytes })

def subnetMask (prefix_len : UInt32) : Except Fault (Option IPv6Address) :=
  createMask 8 (prefix_len % 8) >>= fun mask =>
  modifyAt zeroed.s6_addr (prefix_len.toNat / 8) (fun _ => ~~~.ofBitVec mask) >>= fun bytes =>
  fill 0xff 0 (prefix_len.toNat / 8) bytes >>= fun bytes =>
  .ok (some { zeroed with s6_addr := bytes })

/-- The 128 bits of the address. -/
def bits (a : IPv6Address) : BitVec 128 := BitVec.ofNat 128 (load .big a.s6_addr.toList)

end IPv6Address

end Xzmjx.AddressModel
