import Mathlib.Algebra.Group.Nat.Defs
import Xzmjx.FallibleCalls
import Xzmjx.HttpParserUrl

/-!
# base64encode and base64decode

Both pack groups into an `int` of 24 bits. The decoder allocates its result before it looks at
the input and writes through a pointer, so a store can be out of bounds; the early returns
give the empty string. The encoder appends.
-/
namespace Xzmjx.Base64
open HttpParserModel

abbrev Bytes := List UInt8

def base64 : Bytes := bytes "ABCDEFGHIJKLMNOPQRSTUVWXYZabcdefghijklmnopqrstuvwxyz0123456789+/"

/-- `base64[i]`. -/
def char (i : ℕ) : UInt8 := base64.getD i 0

/-! ### Encoding -/

/-- The loop over the bytes of a group: the packed bytes, their number and what is left. -/
def packLoop : ℕ → ℕ → Bytes → ℕ × ℕ × Bytes
  | i, packed, [] => (packed, i, [])
  | i, packed, b :: bs =>
      if i < 3 then packLoop (i + 1) (packed <<< 8 ||| b.toNat) bs else (packed, i, b :: bs)

/-- What is appended for a group, `packed` filled up with zero bits. -/
def encodeGroup (packed padding : ℕ) : Bytes :=
  [char (packed >>> 18), char (packed >>> 12 &&& 0x3f)] ++
    (if padding ≠ 2 then [char (packed >>> 6 &&& 0x3f)] else []) ++
    (if padding = 0 then [char (packed &&& 0x3f)] else []) ++
    List.replicate padding '='.toUInt8

/-- The loop of `base64encode`; `ret` is the text so far. -/
def encodeLoop : ℕ → Bytes → Bytes → Bytes
  | 0, ret, _ => ret
  | fuel + 1, ret, src =>
      if src = [] then ret
      else
        let (packed, i, rest) := packLoop 0 0 src
        let padding := if i = 2 then 1 else if i = 1 then 2 else 0
        let packed := packed <<< (8 * (3 - i))
        encodeLoop fuel (ret ++ encodeGroup packed padding) rest

/-- `base64encode`. Every round takes a byte at least. -/
def base64encode (data : Bytes) : Bytes := encodeLoop data.length [] data

/-! ### Decoding -/

inductive Fault
  | outOfBounds
  deriving DecidableEq, Repr

/-- The value of a character of the alphabet. -/
def value (c : UInt8) : Option ℕ :=
  if 'A'.toUInt8 ≤ c ∧ c ≤ 'Z'.toUInt8 then some (c - 'A'.toUInt8).toNat
  else if 'a'.toUInt8 ≤ c ∧ c ≤ 'z'.toUInt8 then some ((c - 'a'.toUInt8).toNat + 26)
  else if '0'.toUInt8 ≤ c ∧ c ≤ '9'.toUInt8 then some ((c - '0'.toUInt8).toNat + 52)
  else if c = '+'.toUInt8 then some 62
  else if c = '/'.toUInt8 then some 63
  else none

structure Quad where
  i : ℕ
  padding : ℕ
  packed : ℕ
  rest : Bytes
  deriving DecidableEq, Repr

/-- The loop over the characters of a group; `none` is an early return. -/
def quadLoop : ℕ → ℕ → ℕ → Bytes → Option Quad
  | i, padding, packed, [] => some ⟨i, padding, packed, []⟩
  | i, padding, packed, c :: cs =>
      if ¬i < 4 then some ⟨i, padding, packed, c :: cs⟩
      else if c = '='.toUInt8 then quadLoop (i + 1) (padding + 1) (packed <<< 6) cs
      else if 0 < padding then none
      else
        match value c with
        | none => none
        | some val => quadLoop (i + 1) padding (packed <<< 6 ||| val) cs

/-- `*writeBuf++ = b` with `writeBuf` at `w`. -/
def store (buf : Bytes) (w : ℕ) (b : ℕ) : Except Fault (Bytes × ℕ) :=
  if w < buf.length then .ok (buf.set w (UInt8.ofNat b), w + 1) else .error .outOfBounds

/-- The three stores for a group. -/
def storeGroup (buf : Bytes) (w : ℕ) (q : Quad) : Except Fault (Bytes × ℕ) := do
  let (buf, w) ← store buf w (q.packed >>> 16 &&& 0xff)
  let (buf, w) ← if q.padding ≠ 2 then store buf w (q.packed >>> 8 &&& 0xff) else .ok (buf, w)
  if q.padding = 0 then store buf w (q.packed &&& 0xff) else .ok (buf, w)

/-- The loop of `base64decode`. -/
def decodeLoop : ℕ → Bytes → ℕ → Bytes → Except Fault Bytes
  | 0, buf, w, _ => .ok (buf.take w)
  | fuel + 1, buf, w, src =>
      if src = [] then .ok (buf.take w)
      else
        match quadLoop 0 0 0 src with
        | none => .ok []
        | some q =>
            if q.i ≠ 4 then .ok []
            else if 0 < q.padding ∧ q.rest ≠ [] then .ok []
            else if 2 < q.padding then .ok []
            else do
              let (buf, w) ← storeGroup buf w q
              decodeLoop fuel buf w q.rest

/-- `base64decode`. A round that goes on has taken four characters. -/
def base64decode (src : Bytes) : Except Fault Bytes :=
  decodeLoop src.length (List.replicate (src.length * 3 / 4) 0) 0 src

example : base64encode (bytes "hello") = bytes "aGVsbG8=" := by decide
example : (base64decode (bytes "aGVsbG8=")).toOption = some (bytes "hello") := by decide

end Xzmjx.Base64
