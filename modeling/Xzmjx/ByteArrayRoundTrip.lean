import Xzmjx.ByteArrayCodec
import Xzmjx.FallibleCalls

/-!
# Typed records round-trip

Each typed read undoes its typed write and stops at the first byte behind it,
whatever that byte is; a sequence of them follows by induction.
-/
namespace Xzmjx.ByteArrayCodec
open ByteOrder ByteArrayModel FallibleCalls

variable {native endian : Endian}

@[simp] theorem read_append {n : ℕ} {s : Bytes} (h : s.length = n) (rest : Bytes) :
    read n (s ++ rest) = .ok (⟨s, h⟩, rest) := by
  subst h
  simp [read]

/-! ### Fixed width -/

theorem endianCastByType_lt (native endian : Endian) {n value : ℕ} (h : value < 256 ^ n) :
    endianCastByType native n value endian < 256 ^ n := by
  unfold endianCastByType
  split_ifs
  · exact swap_lt n value
  · exact swap_lt n value
  · exact h

theorem endianCastByType_twice {n value : ℕ} (h : value < 256 ^ n) :
    endianCastByType native n (endianCastByType native n value endian) endian = value := by
  unfold endianCastByType
  split_ifs
  · exact swap_swap h
  · exact swap_swap h
  · rfl

theorem readFixed_writeFixed {n value : ℕ} (h : value < 256 ^ n) (rest : Bytes) :
    readFixed native endian n (writeFixed native endian n value ++ rest) = .ok (value, rest) := by
  have hload := load_store native (endianCastByType_lt native endian h)
  simp only [readFixed, writeFixed, read_append (length_store native n _), bind, Except.bind, pure,
    Except.pure, hload, endianCastByType_twice h]

/-- A typed read of fixed width makes its value out of the integer that was written. -/
theorem readFixed_as {α : Type} {n value : ℕ} {v : α} (f : ℕ → α) (h : value < 256 ^ n)
    (hv : f value = v) (rest : Bytes) :
    (do
      let (ans, bs) ← readFixed native endian n (writeFixed native endian n value ++ rest)
      pure (f ans, bs) : Except Fault (α × Bytes)) = .ok (v, rest) := by
  rw [readFixed_writeFixed h]
  simp only [bind, Except.bind, pure, Except.pure, hv]

theorem readFuint8_append (b : UInt8) (rest : Bytes) :
    readFuint8 native (b :: rest) = .ok (b, rest) := by
  have hread : read 1 (b :: rest) = .ok (⟨[b], rfl⟩, rest) := read_append (s := [b]) rfl rest
  have hload : load native [b] = b.toNat := by cases native <;> simp [load, ofLittle]
  simp only [readFuint8, hread, bind, Except.bind, pure, Except.pure, hload, UInt8.ofNat_toNat]

theorem store_one (v : ℕ) : store native 1 v = [UInt8.ofNat v] := by cases native <;> rfl

theorem readFuint8_writeFuint8 (v : UInt8) (rest : Bytes) :
    readFuint8 native (writeFuint8 native v ++ rest) = .ok (v, rest) := by
  rw [writeFuint8, store_one, UInt8.ofNat_toNat]
  exact readFuint8_append v rest

theorem readFint8_writeFint8 (v : Int8) (rest : Bytes) :
    readFint8 native (writeFint8 native v ++ rest) = .ok (v, rest) := by
  have hlt : v.toUInt8.toNat < 256 ^ 1 := v.toUInt8.toNat_lt
  simp only [readFint8, writeFint8, read_append (length_store native 1 _), bind, Except.bind, pure,
    Except.pure, load_store native hlt, UInt8.ofNat_toNat, Int8.toInt8_toUInt8]

/-! ### Variable width -/

theorem decodeZigzag64_encodeZigzag64 (v : Int64) : decodeZigzag64 (encodeZigzag64 v) = v := by
  have hcode : (encodeZigzag64 v).toBitVec = Varint.zigzag v.toBitVec := by
    have hneg : v < 0 ↔ v.toBitVec.msb = true := by
      rw [Int64.lt_iff_toBitVec_slt]
      exact BitVec.slt_zero_iff_msb_cond
    unfold encodeZigzag64 Varint.zigzag
    simp only [← hneg]
    split_ifs <;> rfl
  apply Int64.toBitVec_inj.mp
  have h := Varint.unzigzag_zigzag (by decide) v.toBitVec
  rw [← hcode] at h
  exact h

/-- A group lands above the bits that have been read. -/
theorem toNat_or_shiftLeft {ans : UInt64} {b : UInt8} {i : ℕ} (hi : i < 64)
    (hans : ans.toNat < 2 ^ i) (hfit : b.toNat * 2 ^ i < 2 ^ 64) :
    (ans ||| b.toUInt64 <<< UInt64.ofNat i).toNat = ans.toNat + b.toNat * 2 ^ i := by
  have hshift : (b.toUInt64 <<< UInt64.ofNat i).toNat = b.toNat <<< i := by
    rw [UInt64.toNat_shiftLeft, UInt64.toNat_ofNat', UInt8.toNat_toUInt64,
      Nat.mod_eq_of_lt (a := i) (by omega), Nat.mod_eq_of_lt hi, Nat.mod_eq_of_lt]
    rwa [Nat.shiftLeft_eq]
  rw [UInt64.toNat_or, hshift, Nat.or_comm, ← Nat.shiftLeft_add_eq_or_of_lt hans,
    Nat.shiftLeft_eq, Nat.add_comm]

/-- The loop puts the groups of `value` on top of what it has already read. -/
theorem readUint64From_groups (native : Endian) {room value i : ℕ} {ans : UInt64} {bs : Bytes}
    (hi : i < 64) (hans : ans.toNat < 2 ^ i) (hfit : value * 2 ^ i < 2 ^ 64)
    (hbs : Varint.groups room value = some bs) (rest : Bytes) :
    ∃ v : UInt64, readUint64From native i ans (bs ++ rest) = .ok (v, rest) ∧
      v.toNat = ans.toNat + value * 2 ^ i := by
  induction room generalizing value i ans bs with
  | zero => simp [Varint.groups] at hbs
  | succ room ih =>
      simp only [Varint.groups] at hbs
      split_ifs at hbs with hlarge
      · obtain ⟨tail, htail, rfl⟩ := Option.map_eq_some_iff.mp hbs
        obtain ⟨hmore, hlow⟩ := Varint.group_more value
        set b := UInt8.ofNat (value &&& 0x7F ||| 0x80)
        have hmod : value % 128 * 2 ^ i ≤ 127 * 2 ^ i := Nat.mul_le_mul_right _ (by omega)
        have hge : 128 * 2 ^ i ≤ value * 2 ^ i := Nat.mul_le_mul_right _ hlarge
        have hpow : 2 ^ (i + 7) = 128 * 2 ^ i := by rw [Nat.pow_add, Nat.mul_comm]
        have hsplit : value * 2 ^ i = value % 128 * 2 ^ i + value / 128 * (128 * 2 ^ i) := by
          rw [← Nat.mul_assoc, ← Nat.add_mul, Nat.mul_comm (value / 128), Nat.mod_add_div]
        have hi' : i + 7 < 64 := by
          refine (Nat.pow_lt_pow_iff_right (a := 2) (by decide)).mp ?_
          omega
        have hans' := toNat_or_shiftLeft (b := b &&& 0x7F) hi hans (by rw [hlow]; omega)
        rw [hlow] at hans'
        have hshift : value >>> 7 = value / 128 := Nat.shiftRight_eq_div_pow value 7
        obtain ⟨v, hv, hval⟩ := ih hi' (hans'.trans_lt (by omega)) (by rw [hshift, hpow]; omega)
          htail
        refine ⟨v, ?_, ?_⟩
        · rw [readUint64From, if_pos hi, List.cons_append, readFuint8_append]
          simp only [bind, Except.bind, if_pos hmore]
          exact hv
        · rw [hval, hans', hshift, hpow, hsplit]
          omega
      · obtain rfl := Option.some.inj hbs
        obtain ⟨hlast, hval⟩ := Varint.group_last (by omega : value < 0x80)
        refine ⟨ans ||| (UInt8.ofNat value).toUInt64 <<< UInt64.ofNat i, ?_, ?_⟩
        · rw [readUint64From, if_pos hi, List.cons_append, readFuint8_append]
          simp [bind, Except.bind, hlast, pure, Except.pure]
        · rw [toNat_or_shiftLeft hi hans (by rwa [hval]), hval]

theorem exists_writeUint64 (value : UInt64) : ∃ bs, writeUint64 value = some bs := by
  refine Varint.exists_groups (by decide) ?_
  have := value.toNat_lt
  omega

theorem readUint64_writeUint64 {value : UInt64} {bs : Bytes} (hbs : writeUint64 value = some bs)
    (rest : Bytes) : readUint64 native (bs ++ rest) = .ok (value, rest) := by
  have hlt := value.toNat_lt
  have hfit : value.toNat * 2 ^ 0 < 2 ^ 64 := by simpa using hlt
  obtain ⟨v, hv, hval⟩ := readUint64From_groups native (by decide)
    (by decide : (0 : UInt64).toNat < 2 ^ 0) hfit hbs rest
  have hvalue : v = value := UInt64.toNat_inj.mp (by simpa using hval)
  rw [readUint64, hv, hvalue]

theorem readInt64_writeInt64 {value : Int64} {bs : Bytes} (hbs : writeInt64 value = some bs)
    (rest : Bytes) : readInt64 native (bs ++ rest) = .ok (value, rest) := by
  rw [readInt64, readUint64_writeUint64 hbs]
  simp only [bind, Except.bind, pure, Except.pure, decodeZigzag64_encodeZigzag64]

/-! ### Variable width, 32 bits -/

theorem exists_writeUint32 (value : UInt32) : ∃ bs, writeUint32 value = some bs := by
  refine Varint.exists_groups (by decide) ?_
  have := value.toNat_lt
  omega

/-- A round of the loop takes a byte. -/
theorem readUint32From_lt {i : ℕ} {ans w : UInt32} {bs rest : Bytes} (hi : i < 32)
    (h : readUint32From native i ans bs = .ok (w, rest)) : rest.length < bs.length := by
  induction i, ans, bs using readUint32From.induct with
  | case1 i ans bs _ ih =>
      rw [readUint32From, if_pos hi] at h
      cases bs with
      | nil => cases h
      | cons b bs =>
          rw [readFuint8_append, ok_bind] at h
          dsimp only at h
          split_ifs at h with htop
          · obtain ⟨-, rfl⟩ := Prod.mk.inj (Except.ok.inj h)
            simp
          · by_cases hi' : i + 7 < 32
            · have := ih b bs hi' h
              rw [List.length_cons]
              omega
            · rw [readUint32From, if_neg hi'] at h
              obtain ⟨-, rfl⟩ := Prod.mk.inj (Except.ok.inj h)
              simp
  | case2 i ans bs hge => exact absurd hi hge

/-- A value of one group is not the end of what is read, and of a value of several groups
only the first is read. -/
theorem readUint32_misaligned {value : UInt32} {bs : Bytes} (hbs : writeUint32 value = some bs)
    (rest : Bytes) (w : UInt32) : readUint32 native (bs ++ rest) ≠ .ok (w, rest) := by
  intro h
  unfold writeUint32 Varint.groups at hbs
  split_ifs at hbs with hlarge
  · obtain ⟨tail, htail, rfl⟩ := Option.map_eq_some_iff.mp hbs
    obtain ⟨hmore, -⟩ := Varint.group_more value.toNat
    rw [readUint32, readUint32From, if_pos (by decide), List.cons_append, readFuint8_append,
      ok_bind] at h
    dsimp only at h
    rw [if_pos hmore] at h
    obtain ⟨-, hrest⟩ := Prod.mk.inj (Except.ok.inj h)
    exact Varint.ne_nil_of_groups htail (by simpa using hrest)
  · obtain rfl := Option.some.inj hbs
    obtain ⟨hlast, -⟩ := Varint.group_last (by omega : value.toNat < 0x80)
    rw [readUint32, readUint32From, if_pos (by decide), List.cons_append, readFuint8_append,
      ok_bind] at h
    dsimp only at h
    rw [if_neg (not_not.mpr hlast)] at h
    have := readUint32From_lt (by decide) h
    simp at this

/-- The 32-bit varints never round-trip: whatever the value and whatever follows it, the
reader does not return the value and stop behind it. -/
theorem varint32_never_round_trips (native : Endian) :
    (∀ v : UInt32, ∃ bs, writeUint32 v = some bs ∧
      ∀ rest, readUint32 native (bs ++ rest) ≠ .ok (v, rest)) ∧
    (∀ v : Int32, ∃ bs, writeInt32 v = some bs ∧
      ∀ rest, readInt32 native (bs ++ rest) ≠ .ok (v, rest)) := by
  constructor
  · intro v
    obtain ⟨bs, hbs⟩ := exists_writeUint32 v
    exact ⟨bs, hbs, fun rest => readUint32_misaligned hbs rest v⟩
  · intro v
    obtain ⟨bs, hbs⟩ := exists_writeUint32 (encodeZigzag32 v)
    refine ⟨bs, hbs, fun rest h => ?_⟩
    obtain ⟨⟨w, left⟩, hread, hret⟩ := bind_eq_ok h
    obtain ⟨-, rfl⟩ := Prod.mk.inj (Except.ok.inj hret)
    exact readUint32_misaligned hbs left w hread

/-- Of the two groups of 300 the first is read and the second is left. The one group of 5
is not enough for the reader, and the byte of the next field is read as well. -/
theorem varint32_misreads :
    ¬(∀ v bs rest, writeUint32 v = some bs → readUint32 .little (bs ++ rest) = .ok (v, rest)) ∧
    (writeUint32 300 = some [0xAC, 0x02] ∧
      readUint32 .little ([0xAC, 0x02] ++ []) = .ok (44, [0x02])) ∧
    (writeUint32 5 = some [5] ∧
      readUint32 .little ([5] ++ []) = .error (.outOfRange "not enough data to read") ∧
      readUint32 .little ([5] ++ [0x81]) = .ok (133, [])) := by
  have h300 : readUint32 .little ([0xAC, 0x02] ++ []) = .ok (44, [0x02]) := by
    simp [readUint32, readUint32From, readFuint8_append, ok_bind, pure, Except.pure]
    decide
  have hshort : readUint32 .little ([5] ++ []) =
      .error (.outOfRange "not enough data to read") := by
    simp [readUint32, readUint32From, readFuint8_append, ok_bind]
    rfl
  have hlong : readUint32 .little ([5] ++ [0x81]) = .ok (133, []) := by
    simp [readUint32, readUint32From, readFuint8_append, ok_bind, pure, Except.pure]
    decide
  refine ⟨fun h => ?_, ⟨by decide, h300⟩, by decide, hshort, hlong⟩
  exact absurd (h300.symm.trans (h 300 [0xAC, 0x02] [] (by decide))) (by decide)

/-! ### Records -/

/-- A typed write never overruns its buffer. -/
theorem Kind.exists_write (native endian : Endian) (k : Kind) (v : k.type) :
    ∃ bs, k.write native endian v = some bs := by
  cases k with
  | int64 => exact exists_writeUint64 _
  | uint64 => exact exists_writeUint64 _
  | stringVint =>
      obtain ⟨size, hsize⟩ := exists_writeUint64 (UInt64.ofNat v.val.length)
      exact ⟨_, by simp only [Kind.write, writeStringVint, hsize]; rfl⟩
  | fint8 => exact ⟨_, rfl⟩
  | fuint8 => exact ⟨_, rfl⟩
  | fint16 => exact ⟨_, rfl⟩
  | fuint16 => exact ⟨_, rfl⟩
  | fint32 => exact ⟨_, rfl⟩
  | fuint32 => exact ⟨_, rfl⟩
  | fint64 => exact ⟨_, rfl⟩
  | fuint64 => exact ⟨_, rfl⟩
  | float => exact ⟨_, rfl⟩
  | double => exact ⟨_, rfl⟩

theorem readStringVint_writeStringVint {s : Text} {bs : Bytes}
    (hbs : writeStringVint s = some bs) (rest : Bytes) :
    readStringVint native (bs ++ rest) = .ok (s, rest) := by
  obtain ⟨size, hsize, rfl⟩ := Option.map_eq_some_iff.mp hbs
  have hlen : s.val.length = (UInt64.ofNat s.val.length).toNat := by
    rw [UInt64.toNat_ofNat', Nat.mod_eq_of_lt s.property]
  rw [readStringVint, List.append_assoc, readUint64_writeUint64 hsize]
  simp only [bind, Except.bind, read_append hlen, pure, Except.pure]

/-- A typed read undoes the typed write and leaves what follows. -/
theorem Kind.read_write {k : Kind} {v : k.type} {bs : Bytes}
    (hbs : k.write native endian v = some bs) (rest : Bytes) :
    k.read native endian (bs ++ rest) = .ok (v, rest) := by
  cases k with
  | int64 => exact readInt64_writeInt64 hbs rest
  | uint64 => exact readUint64_writeUint64 hbs rest
  | stringVint => exact readStringVint_writeStringVint hbs rest
  | fint8 =>
      obtain rfl := Option.some.inj hbs
      exact readFint8_writeFint8 v rest
  | fuint8 =>
      obtain rfl := Option.some.inj hbs
      exact readFuint8_writeFuint8 v rest
  | fint16 =>
      obtain rfl := Option.some.inj hbs
      exact readFixed_as (fun a => (UInt16.ofNat a).toInt16) (Int16.toUInt16 v).toNat_lt
        (congrArg UInt16.toInt16 UInt16.ofNat_toNat) rest
  | fuint16 =>
      obtain rfl := Option.some.inj hbs
      exact readFixed_as UInt16.ofNat (UInt16.toNat_lt v) UInt16.ofNat_toNat rest
  | fint32 =>
      obtain rfl := Option.some.inj hbs
      exact readFixed_as (fun a => (UInt32.ofNat a).toInt32) (Int32.toUInt32 v).toNat_lt
        (congrArg UInt32.toInt32 UInt32.ofNat_toNat) rest
  | fuint32 =>
      obtain rfl := Option.some.inj hbs
      exact readFixed_as UInt32.ofNat (UInt32.toNat_lt v) UInt32.ofNat_toNat rest
  | fint64 =>
      obtain rfl := Option.some.inj hbs
      exact readFixed_as (fun a => (UInt64.ofNat a).toInt64) (Int64.toUInt64 v).toNat_lt
        (congrArg UInt64.toInt64 UInt64.ofNat_toNat) rest
  | fuint64 =>
      obtain rfl := Option.some.inj hbs
      exact readFixed_as UInt64.ofNat (UInt64.toNat_lt v) UInt64.ofNat_toNat rest
  | float =>
      obtain rfl := Option.some.inj hbs
      exact readFixed_as UInt32.ofNat (UInt32.toNat_lt v) UInt32.ofNat_toNat rest
  | double =>
      obtain rfl := Option.some.inj hbs
      exact readFixed_as UInt64.ofNat (UInt64.toNat_lt v) UInt64.ofNat_toNat rest

/-- Typed records round-trip. For every sequence of typed values, under either
`m_endian` and either native order, no typed write overruns its buffer, and the
matching typed reads return the values in order and leave exactly what follows. -/
theorem readAll_writeAll (native endian : Endian) (vs : List Value) :
    ∃ bs, writeAll native endian vs = some bs ∧
      ∀ rest, readAll native endian (vs.map Sigma.fst) (bs ++ rest) = .ok (vs, rest) := by
  induction vs with
  | nil => exact ⟨[], rfl, fun rest => rfl⟩
  | cons v vs ih =>
      obtain ⟨k, v⟩ := v
      obtain ⟨tail, htail, hread⟩ := ih
      obtain ⟨bs, hbs⟩ := k.exists_write native endian v
      refine ⟨bs ++ tail, ?_, fun rest => ?_⟩
      · simp only [writeAll, hbs, htail]
        rfl
      · rw [List.map_cons, readAll, List.append_assoc, Kind.read_write hbs]
        simp only [bind, Except.bind, hread]
        rfl

end Xzmjx.ByteArrayCodec
