import Mathlib.Logic.Relation
import Xzmjx.WebSocketModel

/-!
# Memory safety of the receiver

The size check adds the length a peer claims to the bytes already held, modulo
`2 ^ 64`, so a length just below `2 ^ 64` passes it and shrinks the buffer. Such a
length is negative as an `int`: nothing is read or unmasked, and the loop is left.
-/
namespace Xzmjx.WebSocketModel
open ByteOrder StreamModel FallibleCalls BlockList

/-- The receiver holds the payloads of the frames so far, and fewer bytes than the limit. -/
structure Bounded (σ : RecvState) : Prop where
  curLen : σ.curLen = σ.data.length
  lt : σ.data.length < websocketMsgMaxSize
  sum : σ.data.length = σ.lengths.sum

/-- What every frame leaves behind, however it ends. -/
def Safe (r : Exit × RecvState) : Prop :=
  r.2.data.length < websocketMsgMaxSize ∧ (r.1 ≠ .broke → Bounded r.2)

@[simp] theorem length_resize (data : Bytes) (n : ℕ) : (resize data n).length = n := by
  simp only [resize, List.length_append, List.length_take, List.length_replicate]
  omega

@[simp] theorem length_indeterminate (stack : ℕ → UInt8) (i n : ℕ) :
    (indeterminate stack i n).length = n := by
  simp [indeterminate]

theorem endianCastOnLittle_lt (native : Endian) {n v : ℕ} (h : v < 256 ^ n) :
    endianCastOnLittle native n v < 256 ^ n := by
  unfold endianCastOnLittle
  split_ifs
  · exact swap_lt n v
  · exact h

/-- The accumulated length and a claimed one that pass the check add up below the limit, or
the claimed one is so close to `2 ^ 64` that it is negative as an `int`. -/
theorem accepted_length {c n : ℕ} (hc : c < websocketMsgMaxSize) (hn : n < 2 ^ 64)
    (h : (((c : ℤ) + n) % 2 ^ 64).toNat < websocketMsgMaxSize) :
    (c + n < websocketMsgMaxSize ∧ (((c : ℤ) + n) % 2 ^ 64).toNat = c + n) ∨
      toInt n ≤ 0 := by
  unfold websocketMsgMaxSize at *
  by_cases hwrap : c + n < 2 ^ 64
  · exact Or.inl (by omega)
  · right
    unfold toInt
    rw [Int.bmod_def]
    omega

theorem returns_readFixedSize {s : Stream} {mem : Bytes} {off n : ℕ}
    (hroom : off + (toInt n).toNat ≤ mem.length) :
    Returns (s.readFixedSize mem off n) fun r => r.2.1.length = mem.length := by
  obtain ⟨rt, mem', s', h⟩ := Stream.exists_readFixedSizeFrom hroom
  exact ⟨_, h, (Stream.filled_of_readFixedSizeFrom h).mem_length⟩

theorem returns_unmaskFrom (mask : Bytes) {off count i : ℕ} {data : Bytes}
    (h : off + i + count ≤ data.length) :
    Returns (unmaskFrom mask off count i data) fun r => r.length = data.length := by
  induction count generalizing i data with
  | zero => exact returns_ok rfl
  | succ count ih =>
      rw [unmaskFrom, if_pos (by omega)]
      exact (ih (by rw [List.length_modify]; omega)).mono fun r hr => by
        rw [hr, List.length_modify]

theorem returns_unmask (head : WSFrameHead) (mask : Bytes) {off n : ℕ} {data : Bytes}
    (h : off + (toInt n).toNat ≤ data.length) :
    Returns (unmask head mask off n data) fun r => r.length = data.length :=
  Returns.ite (fun _ => returns_unmaskFrom mask (by omega)) fun _ => returns_ok rfl

section

variable {native : Endian} {client : Bool} {stack : ℕ → UInt8}

theorem returns_recvExtended (n : ℕ) (s : Stream) (hn : n < 2 ^ 31) :
    Returns (recvExtended native n s) fun r => ∀ v, r.1 = some v → v < 256 ^ n := by
  have hroom : 0 + (toInt n).toNat ≤ (store native n 0).length := by
    rw [toInt_of_lt hn, length_store]
    omega
  refine (returns_readFixedSize hroom).bind fun r hr => ?_
  obtain ⟨rt, len, t⟩ := r
  rw [length_store] at hr
  refine Returns.ite (fun _ => returns_ok (by simp)) fun _ => returns_ok ?_
  rintro v hv
  cases hv
  exact endianCastOnLittle_lt native (hr ▸ load_lt native len)

theorem returns_recvLength {head : WSFrameHead} (hpayload : head.payload < 2 ^ 64) (s : Stream) :
    Returns (recvLength native head s) fun r => ∀ v, r.1 = some v → v < 2 ^ 64 := by
  refine Returns.ite (fun _ => ?_) fun _ => Returns.ite (fun _ => ?_) fun _ => returns_ok ?_
  · exact (returns_recvExtended 2 s (by decide)).mono fun r hr v hv =>
      (hr v hv).trans (by decide)
  · exact (returns_recvExtended 8 s (by decide)).mono fun r hr v hv =>
      (hr v hv).trans_eq (by decide)
  · rintro v hv
    cases hv
    exact hpayload

theorem returns_recvMask (head : WSFrameHead) (round : ℕ) (s : Stream) :
    Returns (recvMask stack head round s) fun _ => True := by
  refine Returns.ite (fun _ => ?_) fun _ => returns_ok trivial
  refine (returns_readFixedSize ?_).bind fun r _ =>
    Returns.ite (fun _ => returns_ok trivial) fun _ => returns_ok trivial
  rw [toInt_of_lt (by decide), length_indeterminate]
  decide

/-- A length that passed the size check is read and unmasked inside of the buffer. -/
theorem returns_recvPayload {head : WSFrameHead} {length : ℕ} {σ : RecvState} (mask : Bytes)
    (h : Bounded σ) (hn : length < 2 ^ 64)
    (hsize : ((σ.curLen + length) % 2 ^ 64).toNat < websocketMsgMaxSize) :
    Returns (recvPayload head mask length σ) Safe := by
  have hlt := h.lt
  rw [h.curLen] at hsize
  unfold recvPayload
  rw [h.curLen]
  dsimp only
  rw [Int.toNat_natCast]
  rcases accepted_length hlt hn hsize with ⟨hbelow, hnew⟩ | hneg
  · -- no wrap-around: the buffer grows by `length`
    have hint : toInt length = length := toInt_of_lt (by unfold websocketMsgMaxSize at *; omega)
    have hroom : σ.data.length + (toInt length).toNat = σ.data.length + length := by
      rw [hint, Int.toNat_natCast]
    rw [hnew]
    refine (returns_readFixedSize (by rw [hroom, length_resize])).bind fun r hr => ?_
    obtain ⟨rt, data, s⟩ := r
    rw [length_resize] at hr
    refine Returns.ite (fun _ => returns_ok ⟨by simpa [hr] using hbelow, by simp⟩) fun _ => ?_
    refine (returns_unmask head mask (by rw [hroom, hr])).bind fun data' hdata' => ?_
    rw [hr] at hdata'
    have hcur : Int.bmod ((σ.data.length : ℤ) + length) (2 ^ 32) = σ.data.length + length := by
      rw [← Nat.cast_add]
      exact toInt_of_lt (by unfold websocketMsgMaxSize at *; omega)
    refine returns_ok ⟨by simpa [hdata'] using hbelow, fun _ => ⟨?_, ?_, ?_⟩⟩
    · have hlen : ((data'.length : ℕ) : ℤ) = σ.data.length + length := by
        rw [hdata', Nat.cast_add]
      dsimp only
      rw [hlen]
      exact hcur
    · simpa [hdata'] using hbelow
    · simp [hdata', h.sum]
  · -- wrap-around: a negative number of bytes is asked for
    set size := (((σ.data.length : ℤ) + length) % 2 ^ 64).toNat
    have hread : Returns (σ.stream.readFixedSize (resize σ.data size) σ.data.length length)
        fun r => r.1 ≤ 0 ∧ r.2.1.length = size := by
      refine ⟨_, Stream.readFixedSizeFrom_done _ _ _ hneg, ?_⟩
      dsimp only
      exact ⟨hneg, length_resize _ _⟩
    refine hread.bind fun r hr => ?_
    obtain ⟨rt, data, s⟩ := r
    refine Returns.ite (fun _ => returns_ok ⟨?_, by simp⟩) fun hpos => absurd hr.1 hpos
    exact hr.2.trans_lt hsize

theorem returns_recvData {head : WSFrameHead} {σ : RecvState} (hpayload : head.payload < 2 ^ 64)
    (h : Bounded σ) : Returns (recvData native client stack head σ) Safe := by
  refine Returns.ite (fun _ => returns_ok ⟨h.lt, by simp⟩) fun _ => ?_
  refine (returns_recvLength hpayload _).bind fun r hr => ?_
  obtain ⟨length, s⟩ := r
  cases length with
  | none => exact returns_ok ⟨h.lt, by simp⟩
  | some length =>
      refine Returns.ite (fun _ => returns_ok ⟨h.lt, by simp⟩) fun hsize => ?_
      refine (returns_recvMask head _ _).bind fun r _ => ?_
      obtain ⟨mask, t⟩ := r
      cases mask with
      | none => exact returns_ok ⟨h.lt, by simp⟩
      | some mask =>
          exact returns_recvPayload mask ⟨h.curLen, h.lt, h.sum⟩ (hr length rfl)
            (Nat.lt_of_not_le hsize)

theorem returns_sendControl (opcode : ℕ) (s : Stream) :
    Returns (sendControl opcode s) fun _ => True := by
  have hwrite : ∀ head : WSFrameHead, Returns (s.writeFixedSize head.toBytes 2) fun _ => True := by
    intro head
    obtain ⟨rt, s', h⟩ := Stream.exists_writeFixedSizeFrom head.toBytes (toInt 2) s
    exact ⟨_, h, trivial⟩
  exact (hwrite _).bind fun r _ => returns_ok trivial

theorem returns_recvBody {head : WSFrameHead} {σ : RecvState} (hpayload : head.payload < 2 ^ 64)
    (h : Bounded σ) : Returns (recvBody native client stack head σ) Safe := by
  have hnext : ∀ s round, Bounded { σ with stream := s, round := round } :=
    fun _ _ => ⟨h.curLen, h.lt, h.sum⟩
  refine Returns.ite (fun _ => ?_) fun _ => Returns.ite (fun _ => ?_) fun _ =>
    Returns.ite (fun _ => returns_recvData hpayload h) fun _ => ?_
  · exact (returns_sendControl kPong σ.stream).bind fun r _ => returns_ok ⟨h.lt, fun _ => hnext _ _⟩
  · exact returns_ok ⟨h.lt, fun _ => hnext _ _⟩
  · exact returns_ok ⟨h.lt, fun _ => hnext _ _⟩

variable (native client stack)

/-- One frame. Whatever arrives, it faults nowhere. -/
theorem returns_recvFrame {σ : RecvState} (h : Bounded σ) :
    Returns (recvFrame native client stack σ) Safe := by
  refine (returns_readFixedSize ?_).bind fun r _ => ?_
  · rw [toInt_of_lt (by decide), length_indeterminate]
    decide
  obtain ⟨rt, raw, s⟩ := r
  refine Returns.ite (fun _ => returns_ok ⟨h.lt, by simp⟩) fun _ => ?_
  refine returns_recvBody ?_ ⟨h.curLen, h.lt, h.sum⟩
  exact (Nat.mod_lt _ (by decide)).trans (by decide)

/-! ### Whole runs -/

/-- The states at the top of the loop when it is started on `s`. -/
def Reached (s : Stream) (σ : RecvState) : Prop :=
  Relation.ReflTransGen (fun σ σ' => recvFrame native client stack σ = .ok (.again, σ'))
    { stream := s } σ

theorem bounded_of_reached {s : Stream} {σ : RecvState} (h : Reached native client stack s σ) :
    Bounded σ := by
  induction h with
  | refl => exact ⟨rfl, (by decide : 0 < websocketMsgMaxSize), rfl⟩
  | tail _ hstep ih =>
      obtain ⟨r, hr, -, hbounded⟩ := returns_recvFrame native client stack ih
      cases hstep.symm.trans hr
      exact hbounded (by simp)

/-- The loop returns, and its last frame came from a state at the top of the loop. -/
theorem returns_wsRecvLoop {s : Stream} {σ : RecvState} (h : Reached native client stack s σ) :
    Returns (wsRecvLoop native client stack σ) fun r => ∃ σ₁ e, Reached native client stack s σ₁ ∧
      recvFrame native client stack σ₁ = .ok (e, r.2) ∧ (r.1 = true → e = .returned) := by
  fun_induction wsRecvLoop native client stack σ with
  | case1 σ e hframe =>
      obtain ⟨r, hr, -⟩ := returns_recvFrame native client stack
        (bounded_of_reached native client stack h)
      cases hframe.symm.trans hr
  | case2 σ σ' hframe ih => exact ih (h.tail hframe)
  | case3 σ σ' hframe => exact returns_ok ⟨σ, _, h, hframe, by simp⟩
  | case4 σ σ' hframe => exact returns_ok ⟨σ, _, h, hframe, by simp⟩

/-- The receiver is memory-bounded. For every stream, whatever bytes it delivers in
whatever portions, no frame stores or unmasks outside of the buffer, the buffer never reaches
the limit, and the call returns. A message it returns is as long as its frames together. -/
theorem wsRecvMessage_bounded (s : Stream) :
    (∀ σ, Reached native client stack s σ → σ.data.length < websocketMsgMaxSize ∧
      ∃ e σ', recvFrame native client stack σ = .ok (e, σ') ∧
        σ'.data.length < websocketMsgMaxSize) ∧
    ∃ r s', wsRecvMessage native client stack s = .ok (r, s') ∧ ∀ m, r = some m →
      ∃ σ σ', Reached native client stack s σ ∧
        recvFrame native client stack σ = .ok (.returned, σ') ∧ m.data = σ'.data ∧
        m.data.length < websocketMsgMaxSize ∧ m.data.length = σ'.lengths.sum := by
  constructor
  · intro σ hσ
    have hb := bounded_of_reached native client stack hσ
    obtain ⟨r, hr, hsafe⟩ := returns_recvFrame native client stack hb
    exact ⟨hb.lt, r.1, r.2, hr, hsafe.1⟩
  · obtain ⟨⟨got, σ'⟩, hloop, σ, e, hσ, hframe, hgot⟩ :=
      returns_wsRecvLoop native client stack Relation.ReflTransGen.refl
    cases got with
    | false => exact ⟨_, _, wsRecvMessage_broke hloop, by simp⟩
    | true =>
        cases hgot rfl
        obtain ⟨r, hr, hlt, hbounded⟩ := returns_recvFrame native client stack
          (bounded_of_reached native client stack hσ)
        cases hframe.symm.trans hr
        refine ⟨_, _, wsRecvMessage_returned hloop, fun m hm => ?_⟩
        cases hm
        exact ⟨σ, σ', hσ, hframe, rfl, hlt, (hbounded (by simp)).sum⟩

end

end Xzmjx.WebSocketModel
