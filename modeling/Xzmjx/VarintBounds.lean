import Xzmjx.ByteArrayRoundTrip

/-!
# The loops of the varints are bounded

The writers fill a buffer on the stack whose size is the number of groups of the longest
value. The reader stops after ten bytes whatever they are, and its last shift is by 63.
-/
namespace Xzmjx.ByteArrayCodec
open ByteOrder ByteArrayModel FallibleCalls

/-! ### Writing -/

/-- `bs` is the shortest code of `value`, and it fits a buffer of `room` bytes. -/
structure ShortestCode (room value : ℕ) (bs : Bytes) : Prop where
  length_pos : 1 ≤ bs.length
  length_le : bs.length ≤ room
  terminated : Varint.Terminated bs
  value_eq : Varint.value bs = value
  shortest : ∀ cs, Varint.Terminated cs → Varint.value cs = value → bs.length ≤ cs.length

theorem shortestCode_of_groups {room value : ℕ} {bs : Bytes}
    (h : Varint.groups room value = some bs) : ShortestCode room value bs := by
  obtain ⟨hterm, hval, hlen⟩ := Varint.terminated_of_groups h
  exact ⟨List.length_pos_iff.mpr hterm.ne_nil, hlen, hterm, hval,
    fun _ hcs => Varint.shortest_of_groups h hcs⟩

/-- Of two codes neither is a proper part of the other's front. -/
theorem eq_of_isPrefix_of_groups {room room' v w : ℕ} {bs cs : Bytes}
    (hv : Varint.groups room v = some bs) (hw : Varint.groups room' w = some cs)
    (h : bs <+: cs) : bs = cs :=
  (Varint.terminated_of_groups hv).1.eq_of_isPrefix (Varint.terminated_of_groups hw).1 h

/-! ### Reading -/

/-- The loop of `readUint64` from shift `i` on, with the amounts it shifts by; a round that
reads a byte shifts once. -/
def readUint64Shifts (native : Endian) (i : ℕ) (ans : UInt64) (bs : Bytes) :
    List ℕ × Except Fault (UInt64 × Bytes) :=
  if i < 64 then
    match readFuint8 native bs with
    | .error e => ([], .error e)
    | .ok (b, bs) =>
        if b &&& 0x80 ≠ 0 then
          let rest :=
            readUint64Shifts native (i + 7) (ans ||| (b &&& 0x7F).toUInt64 <<< UInt64.ofNat i) bs
          (i :: rest.1, rest.2)
        else ([i], .ok (ans ||| b.toUInt64 <<< UInt64.ofNat i, bs))
  else ([], .ok (ans, bs))
termination_by 64 - i

/-- The amounts are noted and change nothing. -/
theorem readUint64Shifts_snd (native : Endian) (i : ℕ) (ans : UInt64) (bs : Bytes) :
    (readUint64Shifts native i ans bs).2 = readUint64From native i ans bs := by
  induction i, ans, bs using readUint64Shifts.induct native with
  | case1 i ans bs hi e he =>
      rw [readUint64Shifts, readUint64From, if_pos hi, if_pos hi, he]
      rfl
  | case2 i ans bs hi b rest hb hmore ih =>
      rw [readUint64Shifts, readUint64From, if_pos hi, if_pos hi, hb, ok_bind]
      simp only [if_pos hmore]
      exact ih
  | case3 i ans bs hi b rest hb hlast =>
      rw [readUint64Shifts, readUint64From, if_pos hi, if_pos hi, hb, ok_bind]
      simp only [if_neg hlast]
      rfl
  | case4 i ans bs hi =>
      rw [readUint64Shifts, readUint64From, if_neg hi, if_neg hi]
      rfl

/-- What the loop has done when it ends: one byte is read for each shift, and when it ends
for want of bytes all of them are. -/
def Consumed (bs : Bytes) (rounds : ℕ) : Except Fault (UInt64 × Bytes) → Prop
  | .ok (_, rest) => ∃ taken, bs = taken ++ rest ∧ taken.length = rounds
  | .error _ => bs.length = rounds

theorem Consumed.cons {b : UInt8} {bs : Bytes} {rounds : ℕ}
    {result : Except Fault (UInt64 × Bytes)} (h : Consumed bs rounds result) :
    Consumed (b :: bs) (rounds + 1) result := by
  cases result with
  | error e => exact congrArg (· + 1) h
  | ok r =>
      obtain ⟨taken, rfl, rfl⟩ := h
      exact ⟨b :: taken, rfl, rfl⟩

theorem readUint64Shifts_consumed (native : Endian) (i : ℕ) (ans : UInt64) (bs : Bytes) :
    Consumed bs (readUint64Shifts native i ans bs).1.length
      (readUint64Shifts native i ans bs).2 := by
  induction i, ans, bs using readUint64Shifts.induct native with
  | case1 i ans bs hi e he =>
      rw [readUint64Shifts, if_pos hi, he]
      cases bs with
      | nil => exact List.length_nil
      | cons b bs =>
          rw [readFuint8_append] at he
          cases he
  | case2 i ans bs hi b rest hb hmore ih =>
      rw [readUint64Shifts, if_pos hi, hb]
      simp only [if_pos hmore]
      cases bs with
      | nil => cases hb
      | cons c bs =>
          rw [readFuint8_append] at hb
          obtain ⟨rfl, rfl⟩ := Prod.mk.inj (Except.ok.inj hb)
          exact ih.cons
  | case3 i ans bs hi b rest hb hlast =>
      rw [readUint64Shifts, if_pos hi, hb]
      simp only [if_neg hlast]
      cases bs with
      | nil => cases hb
      | cons c bs =>
          rw [readFuint8_append] at hb
          obtain ⟨rfl, rfl⟩ := Prod.mk.inj (Except.ok.inj hb)
          exact ⟨[c], rfl, rfl⟩
  | case4 i ans bs hi =>
      rw [readUint64Shifts, if_neg hi]
      exact ⟨[], rfl, rfl⟩

/-- A shift is by less than 64, and the next one, if any, by seven more. -/
theorem readUint64Shifts_lt (native : Endian) (i : ℕ) (ans : UInt64) (bs : Bytes) (hi : i ≤ 70) :
    (∀ s ∈ (readUint64Shifts native i ans bs).1, s < 64) ∧
      i + 7 * (readUint64Shifts native i ans bs).1.length ≤ 70 := by
  induction i, ans, bs using readUint64Shifts.induct native with
  | case1 i ans bs hlt e he =>
      rw [readUint64Shifts, if_pos hlt, he]
      exact ⟨by simp, hi⟩
  | case2 i ans bs hlt b rest hb hmore ih =>
      rw [readUint64Shifts, if_pos hlt, hb]
      simp only [if_pos hmore, List.forall_mem_cons, List.length_cons]
      obtain ⟨hall, hlen⟩ := ih (by omega)
      exact ⟨⟨hlt, hall⟩, by omega⟩
  | case3 i ans bs hlt b rest hb hlast =>
      rw [readUint64Shifts, if_pos hlt, hb]
      simp only [if_neg hlast, List.forall_mem_singleton, List.length_singleton]
      exact ⟨hlt, by omega⟩
  | case4 i ans bs hge =>
      rw [readUint64Shifts, if_neg hge]
      exact ⟨by simp, hi⟩

/-- The writers stay in their buffers and write the shortest code, no code is a proper part
of another's front, and the reader takes at most ten bytes and shifts by less than 64. -/
theorem varints_bounded (native : Endian) :
    (∀ v : UInt32, ∃ bs, writeUint32 v = some bs ∧ ShortestCode 5 v.toNat bs) ∧
    (∀ v : UInt64, ∃ bs, writeUint64 v = some bs ∧ ShortestCode 10 v.toNat bs) ∧
    (∀ v w bs cs, writeUint32 v = some bs → writeUint32 w = some cs → bs <+: cs → bs = cs) ∧
    (∀ v w bs cs, writeUint64 v = some bs → writeUint64 w = some cs → bs <+: cs → bs = cs) ∧
    ∀ bs, (readUint64Shifts native 0 0 bs).2 = readUint64 native bs ∧
      (∀ s ∈ (readUint64Shifts native 0 0 bs).1, s < 64) ∧
      (readUint64Shifts native 0 0 bs).1.length ≤ 10 ∧
      Consumed bs (readUint64Shifts native 0 0 bs).1.length (readUint64 native bs) := by
  refine ⟨fun v => ?_, fun v => ?_, fun v w bs cs => eq_of_isPrefix_of_groups,
    fun v w bs cs => eq_of_isPrefix_of_groups, fun bs => ?_⟩
  · obtain ⟨bs, hbs⟩ := exists_writeUint32 v
    exact ⟨bs, hbs, shortestCode_of_groups hbs⟩
  · obtain ⟨bs, hbs⟩ := exists_writeUint64 v
    exact ⟨bs, hbs, shortestCode_of_groups hbs⟩
  · have hresult : (readUint64Shifts native 0 0 bs).2 = readUint64 native bs :=
      readUint64Shifts_snd native 0 0 bs
    obtain ⟨hshifts, hrounds⟩ := readUint64Shifts_lt native 0 0 bs (Nat.zero_le 70)
    refine ⟨hresult, hshifts, by omega, ?_⟩
    rw [← hresult]
    exact readUint64Shifts_consumed native 0 0 bs

end Xzmjx.ByteArrayCodec
