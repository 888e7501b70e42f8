import Mathlib.Algebra.Group.Nat.Defs
import Xzmjx.BlockList

/-!
# The chunked byte array

`ByteArray` keeps its data in a singly linked chain of nodes of one base size.
The chain from `m_root` is the list `nodes`, and a node pointer is a position in
that list; `m_cur` is `none` where the source holds `nullptr`. A loop of the
source that follows `next` recurses on the part of the chain that is ahead of
it, so running off the chain is the empty list and is reported as `nullDeref`.

Sizes are natural numbers. The subtractions that the source may perform with a
larger right operand go through `sizeSub`, which wraps as `size_t` does. A cell
of `new char[s]` holds `none` until it is written.
-/
namespace Xzmjx.ByteArrayModel
open BlockList

abbrev Cell := Option UInt8

/-- How a call can fail to return. `nullDeref` is undefined behaviour in the
source, `outOfRange` is the exception with its text. -/
inductive Fault
  | outOfRange (what : String)
  | nullDeref
  deriving DecidableEq, Repr

structure Node where
  ptr : List Cell
  deriving DecidableEq, Repr

namespace Node

/-- `Node(size_t s)`: `s` bytes of indeterminate content. -/
def alloc (s : ℕ) : Node := ⟨List.replicate s none⟩

def size (n : Node) : ℕ := n.ptr.length

end Node

structure ByteArray where
  position : ℕ
  baseSize : ℕ
  capacity : ℕ
  size : ℕ
  nodes : List Node
  cur : Option ℕ
  deriving DecidableEq, Repr

/-- `a - b` on `size_t`. -/
def sizeSub (a b : ℕ) : ℕ := if b ≤ a then a - b else 2 ^ 64 + a - b

theorem sizeSub_of_le {a b : ℕ} (h : b ≤ a) : sizeSub a b = a - b := if_pos h

namespace ByteArray

/-- The constructor: one node, cursor at its start. -/
def new (baseSize : ℕ) : ByteArray where
  position := 0
  baseSize := baseSize
  capacity := baseSize
  size := 0
  nodes := [Node.alloc baseSize]
  cur := some 0

def getReadSize (ba : ByteArray) : ℕ := sizeSub ba.size ba.position

def getCapacity (ba : ByteArray) : ℕ := sizeSub ba.capacity ba.position

/-- The node at a position of the chain, `none` past its end. -/
def nodeAt (ba : ByteArray) (i : ℕ) : Option ℕ := if i < ba.nodes.length then some i else none

/-- `clear` keeps the root node and what its bytes were. -/
def clear (ba : ByteArray) : ByteArray :=
  { ba with position := 0, size := 0, capacity := ba.baseSize,
            nodes := ba.nodes.take 1, cur := some 0 }

/-- `addCapacity`, with `ceil` exact. The new nodes go to the end of the chain,
and the cursor moves to the first of them only if no room was left at all. -/
def addCapacity (ba : ByteArray) (size : ℕ) : ByteArray :=
  if size = 0 then ba
  else
    let oldCap := ba.getCapacity
    if size ≤ oldCap then ba
    else
      let nodeCount := (size - oldCap + ba.baseSize - 1) / ba.baseSize
      let first := if nodeCount = 0 then none else some ba.nodes.length
      { ba with
        nodes := ba.nodes ++ List.replicate nodeCount (Node.alloc ba.baseSize)
        capacity := ba.capacity + nodeCount * ba.baseSize
        cur := if oldCap = 0 then first else ba.cur }

/-- The loop of `write` along the chain ahead of `m_cur`: the chain afterwards,
and by how many nodes `m_cur` has advanced. -/
def writeLoop : List Node → ℕ → List UInt8 → Except Fault (List Node × ℕ)
  | [], _, _ => .error .nullDeref
  | n :: next, npos, buf =>
      let ncap := n.size - npos
      if buf.length ≤ ncap then
        .ok (⟨overlay n.ptr npos (buf.map some)⟩ :: next,
          if n.size = npos + buf.length then 1 else 0)
      else
        match writeLoop next 0 (buf.drop ncap) with
        | .error e => .error e
        | .ok (next', k) => .ok (⟨overlay n.ptr npos ((buf.take ncap).map some)⟩ :: next', k + 1)

def write (ba : ByteArray) (buf : List UInt8) : Except Fault ByteArray :=
  if buf.length = 0 then .ok ba
  else
    let ba := ba.addCapacity buf.length
    match ba.cur with
    | none => .error .nullDeref
    | some c =>
        match writeLoop (ba.nodes.drop c) (ba.position % ba.baseSize) buf with
        | .error e => .error e
        | .ok (ahead, k) =>
            let position := ba.position + buf.length
            .ok { ba with
              position := position
              nodes := ba.nodes.take c ++ ahead
              cur := ba.nodeAt (c + k)
              size := if ba.size < position then position else ba.size }

/-- The loop of the positional `read`. The node is dereferenced for its size
before the first test of `size`, so a null node faults even for `size = 0`. -/
def readLoop : List Node → ℕ → ℕ → Except Fault (List Cell)
  | [], _, _ => .error .nullDeref
  | n :: next, npos, size =>
      let ncap := n.size - npos
      if size = 0 then .ok []
      else if size ≤ ncap then .ok ((n.ptr.drop npos).take size)
      else
        match readLoop next 0 (size - ncap) with
        | .error e => .error e
        | .ok more => .ok ((n.ptr.drop npos).take ncap ++ more)

/-- `read(buf, size, position)`. -/
def readAt (ba : ByteArray) (size position : ℕ) : Except Fault (List Cell) :=
  if sizeSub ba.size position < size then .error (.outOfRange "not enough data to read")
  else readLoop (ba.nodes.drop (position / ba.baseSize)) (position % ba.baseSize) size

/-- The loop of the consuming `read`: the bytes, and by how many nodes `m_cur`
has advanced. Where the read ends, the source compares the node's size with
`size` alone, and not with `npos + size` as `write` does. -/
def consumeLoop : List Node → ℕ → ℕ → Except Fault (List Cell × ℕ)
  | [], _, _ => .error .nullDeref
  | n :: next, npos, size =>
      let ncap := n.size - npos
      if size = 0 then .ok ([], 0)
      else if size ≤ ncap then
        .ok ((n.ptr.drop npos).take size, if n.size = size then 1 else 0)
      else
        match consumeLoop next 0 (size - ncap) with
        | .error e => .error e
        | .ok (more, k) => .ok ((n.ptr.drop npos).take ncap ++ more, k + 1)

/-- `read(buf, size)`. -/
def read (ba : ByteArray) (size : ℕ) : Except Fault (List Cell × ByteArray) :=
  if ba.getReadSize < size then .error (.outOfRange "not enough data to read")
  else
    match ba.cur with
    | none => .error .nullDeref
    | some c =>
        match consumeLoop (ba.nodes.drop c) (ba.position % ba.baseSize) size with
        | .error e => .error e
        | .ok (bytes, k) =>
            .ok (bytes, { ba with position := ba.position + size, cur := ba.nodeAt (c + k) })

/-- The loop of `setPosition`, which subtracts the size of the node it has just
moved to, and the final comparison. -/
def seekLoop : List Node → ℕ → Except Fault ℕ
  | [], _ => .error .nullDeref
  | n :: next, pos =>
      if n.size < pos then
        match next with
        | [] => .error .nullDeref
        | m :: next =>
            match seekLoop (m :: next) (sizeSub pos m.size) with
            | .error e => .error e
            | .ok k => .ok (k + 1)
      else .ok (if pos = n.size then 1 else 0)

def setPosition (ba : ByteArray) (pos : ℕ) : Except Fault ByteArray :=
  if ba.capacity < pos then .error (.outOfRange "setPostion out of range")
  else
    match seekLoop ba.nodes pos with
    | .error e => .error e
    | .ok k =>
        .ok { ba with
          position := pos
          size := if ba.size < pos then pos else ba.size
          cur := ba.nodeAt k }

/-- `toString`: the unread bytes, by the positional read. -/
def toString (ba : ByteArray) : Except Fault (List Cell) := ba.readAt ba.getReadSize ba.position

end ByteArray

end Xzmjx.ByteArrayModel
