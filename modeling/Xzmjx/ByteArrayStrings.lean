import Xzmjx.ByteArrayRoundTrip

/-!
# Strings with a prefix of fixed width

A string is written as its length, converted to the type of the prefix, and then
all of its bytes. With 16 and 32 bits the reader takes the length modulo the range
of the prefix, so it stops early exactly when the length does not fit. With 64 bits
the reader takes two of the eight bytes of the prefix.
-/
namespace Xzmjx.ByteArrayCodec
open ByteOrder ByteArrayModel FallibleCalls

variable {native endian : Endian}

/-- The string is refused with nothing written, or the reader returns it and leaves
exactly what follows. -/
def Synchronised (write : Text → Bytes) (read : Bytes → Except Fault (Text × Bytes))
    (s : Text) : Prop :=
  write s = [] ∨ ∀ rest, read (write s ++ rest) = .ok (s, rest)

/-- The first `k` bytes of a string. -/
def Text.take (s : Text) (k : ℕ) : Text :=
  ⟨s.val.take k, (List.length_take_le' k s.val).trans_lt s.property⟩

theorem readText_append {len : UInt64} {s : Text} (hlen : len.toNat ≤ s.val.length)
    (rest : Bytes) :
    readText len (s.val ++ rest) = .ok (s.take len.toNat, s.val.drop len.toNat ++ rest) := by
  have htake : (s.val.take len.toNat).length = len.toNat := by simpa using hlen
  have hsplit : s.val ++ rest = s.val.take len.toNat ++ (s.val.drop len.toNat ++ rest) := by
    rw [← List.append_assoc, List.take_append_drop]
  rw [readText, hsplit, read_append htake, ok_bind]
  rfl

/-- The reader comes back to the length modulo the range of the prefix. -/
theorem readStringF16_writeStringF16 (s : Text) (rest : Bytes) :
    readStringF16 native endian (writeStringF16 native endian s ++ rest) =
      .ok (s.take (s.val.length % 2 ^ 16), s.val.drop (s.val.length % 2 ^ 16) ++ rest) := by
  set v := UInt16.ofNat s.val.length with hv
  have hlen : v.toInt16.toUInt16.toUInt64.toNat = s.val.length % 2 ^ 16 := by simp [hv]
  have hprefix : readFint16 native endian (writeFuint16 native endian v ++ (s.val ++ rest)) =
      .ok (v.toInt16, s.val ++ rest) :=
    readFixed_as (fun a => (UInt16.ofNat a).toInt16) v.toNat_lt
      (congrArg UInt16.toInt16 UInt16.ofNat_toNat) _
  rw [readStringF16, writeStringF16, List.append_assoc, ← hv, hprefix, ok_bind]
  dsimp only
  rw [readText_append (by rw [hlen]; exact Nat.mod_le _ _), hlen]

theorem readStringF32_writeStringF32 (s : Text) (rest : Bytes) :
    readStringF32 native endian (writeStringF32 native endian s ++ rest) =
      .ok (s.take (s.val.length % 2 ^ 32), s.val.drop (s.val.length % 2 ^ 32) ++ rest) := by
  set v := UInt32.ofNat s.val.length with hv
  have hlen : v.toInt32.toUInt32.toUInt64.toNat = s.val.length % 2 ^ 32 := by simp [hv]
  have hprefix : readFint32 native endian (writeFuint32 native endian v ++ (s.val ++ rest)) =
      .ok (v.toInt32, s.val ++ rest) :=
    readFixed_as (fun a => (UInt32.ofNat a).toInt32) v.toNat_lt
      (congrArg UInt32.toInt32 UInt32.ofNat_toNat) _
  rw [readStringF32, writeStringF32, List.append_assoc, ← hv, hprefix, ok_bind]
  dsimp only
  rw [readText_append (by rw [hlen]; exact Nat.mod_le _ _), hlen]

/-- A reader that comes back to the length modulo `m` is right for the lengths below `m`. -/
theorem synchronised_iff {write : Text → Bytes} {read : Bytes → Except Fault (Text × Bytes)}
    {m : ℕ} (hm : 0 < m) (hne : ∀ s, write s ≠ [])
    (hread : ∀ s rest, read (write s ++ rest) =
      .ok (s.take (s.val.length % m), s.val.drop (s.val.length % m) ++ rest)) (s : Text) :
    Synchronised write read s ↔ s.val.length < m := by
  constructor
  · rintro (hnil | hback)
    · exact absurd hnil (hne s)
    · have heq := Prod.mk.inj (Except.ok.inj ((hread s []).symm.trans (hback [])))
      have hdrop : s.val.drop (s.val.length % m) = [] := by simpa using heq.2
      have hle : s.val.length ≤ s.val.length % m := List.drop_eq_nil_iff.mp hdrop
      exact hle.trans_lt (Nat.mod_lt _ hm)
  · intro hlt
    refine .inr fun rest => ?_
    have htake : s.take s.val.length = s := Subtype.ext (List.take_length ..)
    rw [hread, Nat.mod_eq_of_lt hlt, htake, List.drop_length, List.nil_append]

theorem writeStringF16_ne_nil (s : Text) : writeStringF16 native endian s ≠ [] := by
  apply List.ne_nil_of_length_pos
  simp [writeStringF16, writeFuint16, writeFixed]

theorem writeStringF32_ne_nil (s : Text) : writeStringF32 native endian s ≠ [] := by
  apply List.ne_nil_of_length_pos
  simp [writeStringF32, writeFuint32, writeFixed]

/-- When the 16- and 32-bit prefixes keep the stream aligned. Under either `m_endian` and
either native order this holds of a string if and only if its length fits in the prefix. -/
theorem prefixed_strings_synchronised_iff (native endian : Endian) (s : Text) :
    (Synchronised (writeStringF16 native endian) (readStringF16 native endian) s ↔
      s.val.length < 2 ^ 16) ∧
    (Synchronised (writeStringF32 native endian) (readStringF32 native endian) s ↔
      s.val.length < 2 ^ 32) :=
  ⟨synchronised_iff (by decide) writeStringF16_ne_nil readStringF16_writeStringF16 s,
    synchronised_iff (by decide) writeStringF32_ne_nil readStringF32_writeStringF32 s⟩

/-- A string of 65536 zero bytes. -/
def zeros : Text := ⟨List.replicate (2 ^ 16) 0, by rw [List.length_replicate]; decide⟩

theorem length_zeros : zeros.val.length = 2 ^ 16 := List.length_replicate

/-- The prefix of this string is zero: the reader returns the empty string and leaves all of
the bytes. -/
theorem long_string_desynchronises :
    ¬Synchronised (writeStringF16 .little .big) (readStringF16 .little .big) zeros ∧
    readStringF16 .little .big (writeStringF16 .little .big zeros ++ []) =
      .ok (zeros.take 0, zeros.val ++ []) := by
  constructor
  · rw [synchronised_iff (by decide) writeStringF16_ne_nil readStringF16_writeStringF16,
      length_zeros]
    exact Nat.lt_irrefl _
  · rw [readStringF16_writeStringF16, length_zeros, Nat.mod_self, List.drop_zero]

/-! ### 64 bits -/

theorem length_of_readText {len : UInt64} {bs rest : Bytes} {s : Text}
    (h : readText len bs = .ok (s, rest)) : bs.length = s.val.length + rest.length := by
  obtain ⟨⟨buf, left⟩, hread, hret⟩ := bind_eq_ok h
  obtain ⟨rfl, rfl⟩ := Prod.mk.inj (Except.ok.inj hret)
  unfold read at hread
  split_ifs at hread with hle
  obtain ⟨rfl, rfl⟩ := Prod.mk.inj (Except.ok.inj hread)
  rw [← List.length_append, List.take_append_drop]

/-- What the reader takes for a string of `n` bytes is `n + 2` bytes. -/
theorem length_of_readStringF64 {bs rest : Bytes} {s : Text}
    (h : readStringF64 native endian bs = .ok (s, rest)) :
    bs.length = 2 + s.val.length + rest.length := by
  obtain ⟨⟨len, left⟩, hlen, htext⟩ := bind_eq_ok h
  have hleft := length_of_readText htext
  obtain ⟨⟨ans, left'⟩, hfixed, hret⟩ := bind_eq_ok hlen
  obtain ⟨-, rfl⟩ := Prod.mk.inj (Except.ok.inj hret)
  obtain ⟨⟨buf, left''⟩, hread, hret'⟩ := bind_eq_ok hfixed
  obtain ⟨-, rfl⟩ := Prod.mk.inj (Except.ok.inj hret')
  unfold read at hread
  split_ifs at hread with hle
  obtain ⟨-, rfl⟩ := Prod.mk.inj (Except.ok.inj hread)
  rw [List.length_drop] at hleft
  omega

/-- Strings with a 64-bit prefix never round-trip: whatever the string, the byte orders and
what follows, the reader does not return the string and stop behind it. -/
theorem stringF64_never_round_trips (native endian : Endian) (s : Text) (rest : Bytes) :
    readStringF64 native endian (writeStringF64 native endian s ++ rest) ≠ .ok (s, rest) := by
  intro h
  have hlen := length_of_readStringF64 h
  have hwritten : (writeStringF64 native endian s).length = 8 + s.val.length := by
    simp [writeStringF64, writeFuint64, writeFixed]
  rw [List.length_append, hwritten] at hlen
  omega

/-- The high bytes of a big-endian prefix are zero: the reader returns the empty string and
leaves the rest of the prefix and the text. -/
theorem stringF64_misread :
    writeStringF64 .little .big ⟨[104, 105], by decide⟩ = [0, 0, 0, 0, 0, 0, 0, 2, 104, 105] ∧
    readStringF64 .little .big ([0, 0, 0, 0, 0, 0, 0, 2, 104, 105] ++ [7]) =
      .ok (⟨[], by decide⟩, [0, 0, 0, 0, 0, 2, 104, 105, 7]) ∧
    readStringF64 .little .big ([0, 0, 0, 0, 0, 0, 0, 2, 104, 105] ++ [7]) ≠
      .ok (⟨[104, 105], by decide⟩, [7]) := by
  decide

end Xzmjx.ByteArrayCodec
