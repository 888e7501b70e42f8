import Xzmjx.ByteArrayBuffers
import Xzmjx.ByteArrayReads
import Xzmjx.ByteArrayCodec

/-!
# The bounds checks of the byte array

Every read compares with the size before it touches a node. Two things escape the
comparison: a position past the size makes its subtraction wrap, and a read of no bytes
passes it wherever the cursor stands, also where there is no node. A typed read makes
several reads, and an exception of the second finds the first already consumed.

A consuming read can leave the cursor one node behind its position, so the states that a
caller can reach are described by `Trailing` and not by `Coherent`.
-/
namespace Xzmjx.ByteArrayModel
open BlockList StepSystem

/-- The same array with the cursor at the node of its position. -/
def ByteArray.aligned (B : ℕ) (ba : ByteArray) : ByteArray :=
  { ba with cur := if ba.position = ba.capacity then none else some (ba.position / B) }

/-- What holds between calls, consuming reads among them: the cursor is a node of the chain,
at the node of the position or before it, and is null at the full capacity only. -/
structure Trailing (B : ℕ) (ba : ByteArray) : Prop where
  aligned : Coherent B (ba.aligned B)
  null : ba.cur = none → ba.position = ba.capacity
  behind : ∀ c, ba.cur = some c → c < ba.nodes.length ∧ c ≤ ba.position / B

theorem Coherent.trailing {B : ℕ} {ba : ByteArray} (h : Coherent B ba) : Trailing B ba := by
  have heq : ba.aligned B = ba := by rw [ByteArray.aligned, ← h.cur]
  refine ⟨heq.symm ▸ h, fun hnull => ?_, fun c hc => ?_⟩
  · rw [h.cur] at hnull
    split_ifs at hnull with hend
    exact hend
  · rw [h.cur] at hc
    split_ifs at hc with hend
    obtain rfl := Option.some.inj hc
    have hle := h.position_le_capacity
    exact ⟨h.div_lt (by omega), le_rfl⟩

/-- The calls of a caller that goes on after an exception. `receive` is `getWriteBuffers` and
the `recvmsg` that fills the view. -/
inductive Use
  | write (buf : List UInt8)
  | read (n : ℕ)
  | setPosition (pos : ℕ)
  | clear
  | receive (len : ℕ) (got : List UInt8)
  deriving DecidableEq

def ByteArray.receive (ba : ByteArray) (len : ℕ) (got : List UInt8) : Except Fault ByteArray :=
  match ba.getWriteBuffers len with
  | .error e => .error e
  | .ok (vs, ba) => .ok { ba with nodes := scatter ba.nodes vs got }

def ByteArray.use (ba : ByteArray) : Use → Option ByteArray
  | .write buf => ba.settle (ba.write buf)
  | .read n => ba.settle ((ba.read n).map Prod.snd)
  | .setPosition pos => ba.settle (ba.setPosition pos)
  | .clear => some ba.clear
  | .receive len got => ba.settle (ba.receive len got)

/-! ### The buffers of a view lie inside their nodes -/

theorem buffersLoop_fits {B i npos len : ℕ} {chain : List Node} {vs : List Iovec}
    (hu : Uniform B chain) (hnpos : npos ≤ B) (h : buffersLoop i chain npos len = .ok vs) :
    ∀ v ∈ vs, v.offset + v.len ≤ B := by
  induction chain generalizing i npos vs with
  | nil => cases h
  | cons n next ih =>
      obtain ⟨hsize, hnext⟩ := uniform_cons.mp hu
      rw [buffersLoop] at h
      split_ifs at h with hfit
      · obtain rfl := Except.ok.inj h
        intro v hv
        obtain rfl := List.mem_singleton.mp hv
        dsimp only
        omega
      · cases hrest : buffersLoop (i + 1) next 0 len with
        | error e =>
            rw [hrest] at h
            cases h
        | ok vs' =>
            rw [hrest] at h
            obtain rfl := Except.ok.inj h
            intro v hv
            rcases List.mem_cons.mp hv with rfl | hv
            · dsimp only
              omega
            · exact ih hnext (Nat.zero_le B) hrest v hv

theorem scatter_uniform {B : ℕ} {nodes : List Node} {vs : List Iovec} (bytes : List UInt8)
    (hu : Uniform B nodes) (hfit : ∀ v ∈ vs, v.offset + v.len ≤ B) :
    Uniform B (scatter nodes vs bytes) ∧ (scatter nodes vs bytes).length = nodes.length := by
  induction vs generalizing nodes bytes with
  | nil => exact ⟨hu, rfl⟩
  | cons v vs ih =>
      have hv := hfit v List.mem_cons_self
      have hfirst : v.offset + ((bytes.take v.len).map (some : UInt8 → Cell)).length ≤ B := by
        rw [List.length_map, List.length_take]
        omega
      obtain ⟨hu', hlen⟩ := ih (bytes.drop v.len)
        (uniform_modify (i := v.node) hu hfirst)
        fun w hw => hfit w (List.mem_cons_of_mem _ hw)
      exact ⟨hu', hlen.trans (List.length_modify _ _ _)⟩

namespace Trailing

variable {B : ℕ} {ba : ByteArray}

theorem base_pos (h : Trailing B ba) : 0 < B := h.aligned.base_pos

theorem base (h : Trailing B ba) : ba.baseSize = B := h.aligned.base

theorem uniform (h : Trailing B ba) : Uniform B ba.nodes := h.aligned.uniform

theorem capacity (h : Trailing B ba) : ba.capacity = B * ba.nodes.length := h.aligned.capacity

theorem position_le (h : Trailing B ba) : ba.position ≤ ba.size := h.aligned.position_le

theorem size_le (h : Trailing B ba) : ba.size ≤ ba.capacity := h.aligned.size_le

theorem getReadSize (h : Trailing B ba) : ba.getReadSize = ba.size - ba.position :=
  sizeSub_of_le h.position_le

/-- Below the full capacity the cursor is a node, with room from there for what the position
has room for. -/
theorem exists_cur (h : Trailing B ba) {n : ℕ} (hn : 0 < n)
    (hroom : ba.position + n ≤ ba.capacity) :
    ∃ c, ba.cur = some c ∧ c < ba.nodes.length ∧ c ≤ ba.position / B ∧
      ba.position % B + n ≤ B * (ba.nodes.drop c).length := by
  cases hcur : ba.cur with
  | none =>
      have := h.null hcur
      omega
  | some c =>
      obtain ⟨hlt, hle⟩ := h.behind c hcur
      have hahead : ba.position % B + n ≤ B * (ba.nodes.drop (ba.position / B)).length :=
        h.aligned.room_ahead (p := ba.position) (by dsimp only [ByteArray.aligned]; omega) hroom
      have hmore : (ba.nodes.drop (ba.position / B)).length ≤ (ba.nodes.drop c).length := by
        rw [List.length_drop, List.length_drop]
        omega
      exact ⟨c, rfl, hlt, hle, hahead.trans (Nat.mul_le_mul_left B hmore)⟩

/-- A call that goes forward `n` bytes and moves the cursor at most as many nodes as that. -/
theorem advance (h : Trailing B ba) {ba' : ByteArray} {c k n : ℕ} (hc : c ≤ ba.position / B)
    (hk : k ≤ (ba.position % B + n) / B) (hroom : ba.position + n ≤ ba.capacity)
    (haligned : Coherent B (ba'.aligned B)) (hpos : ba'.position = ba.position + n)
    (hcap : ba'.capacity = ba.capacity) (hcur : ba'.cur = ba.nodeAt (c + k)) : Trailing B ba' := by
  have hlen : ba'.nodes.length = ba.nodes.length := by
    have := haligned.capacity.symm.trans (hcap.trans h.capacity)
    exact Nat.eq_of_mul_eq_mul_left h.base_pos this
  have hnode : c + k ≤ (ba.position + n) / B := by
    rw [← div_add_mod_add_div h.base_pos]
    omega
  unfold ByteArray.nodeAt at hcur
  refine ⟨haligned, fun hnull => ?_, fun d hd => ?_⟩
  · rw [hcur] at hnull
    split_ifs at hnull with hlt
    have hfull : B * ba.nodes.length ≤ ba.position + n :=
      (Nat.mul_le_mul_left B (by omega)).trans (Nat.mul_div_le (ba.position + n) B)
    have := h.capacity
    omega
  · rw [hcur] at hd
    split_ifs at hd with hlt
    obtain rfl := Option.some.inj hd
    rw [hpos, hlen]
    exact ⟨hlt, hnode⟩

theorem addCapacity (h : Trailing B ba) (n : ℕ) :
    Trailing B (ba.addCapacity n) ∧ (ba.addCapacity n).position = ba.position ∧
      (ba.addCapacity n).size = ba.size ∧ ba.position + n ≤ (ba.addCapacity n).capacity := by
  have hg := addCapacity_grown h.aligned n
  have hcoh := hg.coherent
  have hroom : ba.position + n ≤ ((ba.aligned B).addCapacity n).capacity := hg.room
  have hcap := h.capacity
  have hle := h.position_le.trans h.size_le
  have hold : ba.getCapacity = ba.capacity - ba.position := sizeSub_of_le hle
  have hold' : (ba.aligned B).getCapacity = ba.capacity - ba.position := hold
  unfold ByteArray.addCapacity at hcoh hroom ⊢
  rw [hold'] at hcoh hroom
  rw [hold]
  by_cases hn : n = 0
  · rw [if_pos hn]
    exact ⟨h, rfl, rfl, by omega⟩
  by_cases hfit : n ≤ ba.capacity - ba.position
  · rw [if_neg hn, if_pos hfit]
    exact ⟨h, rfl, rfl, by omega⟩
  rw [if_neg hn, if_neg hfit] at hcoh hroom ⊢
  dsimp only [ByteArray.aligned] at hcoh hroom ⊢
  refine ⟨?_, rfl, rfl, hroom⟩
  by_cases hfull : ba.capacity - ba.position = 0
  · rw [if_pos hfull] at hcoh ⊢
    exact hcoh.trailing
  · rw [if_neg hfull] at hcoh ⊢
    refine ⟨⟨hcoh.base_pos, hcoh.base, hcoh.root, hcoh.uniform, hcoh.capacity, hcoh.position_le,
      hcoh.size_le, rfl⟩, fun hnull => ?_, fun c hc => ?_⟩
    · have := h.null hnull
      omega
    · obtain ⟨hlt, hbehind⟩ := h.behind c hc
      rw [List.length_append]
      exact ⟨by omega, hbehind⟩

/-- A write never faults, whatever node it writes to. -/
theorem write_returns (h : Trailing B ba) (buf : List UInt8) :
    ∃ ba', ba.write buf = .ok ba' ∧ Trailing B ba' := by
  by_cases hbuf : buf.length = 0
  · exact ⟨ba, if_pos hbuf, h⟩
  obtain ⟨hga, hpos, hsize, hroom⟩ := h.addCapacity buf.length
  set ga := ba.addCapacity buf.length with hdef
  have hgroom : ga.position + buf.length ≤ ga.capacity := by omega
  obtain ⟨c, hcur, hlt, hc, hahead⟩ := hga.exists_cur (by omega) hgroom
  obtain ⟨ahead, hloop, hu, hlen, -⟩ := writeLoop_spec hga.base_pos (hga.uniform.drop c)
    (Nat.mod_lt ga.position hga.base_pos) (by omega) hahead
  have hnodes : (ga.nodes.take c ++ ahead).length = ga.nodes.length := by
    rw [List.length_append, hlen, List.length_take, List.length_drop]
    omega
  have hrun : ba.write buf = .ok
      { ga with
        position := ga.position + buf.length
        nodes := ga.nodes.take c ++ ahead
        cur := ga.nodeAt (c + (ga.position % B + buf.length) / B)
        size := if ga.size < ga.position + buf.length then ga.position + buf.length
                else ga.size } := by
    simp only [ByteArray.write, if_neg hbuf, ← hdef, hcur, hga.base, hloop]
  refine ⟨_, hrun, hga.advance hc le_rfl hgroom ?_ rfl rfl rfl⟩
  refine ⟨hga.base_pos, hga.base, ?_, ?_, ?_, ?_, ?_, rfl⟩
  · exact List.ne_nil_of_length_pos (hnodes ▸ (Nat.zero_le _).trans_lt hlt)
  · exact uniform_append.mpr ⟨hga.uniform.take c, hu⟩
  · simp only [ByteArray.aligned, hnodes, hga.capacity]
  · dsimp only [ByteArray.aligned]
    split_ifs <;> omega
  · have := hga.size_le
    dsimp only [ByteArray.aligned]
    split_ifs <;> omega

/-- A read of no bytes needs a node all the same, and changes nothing. -/
theorem read_zero (h : Trailing B ba) :
    ba.read 0 = if ba.cur = none then .error .nullDeref else .ok ([], ba) := by
  cases hcur : ba.cur with
  | none => simp [ByteArray.read, hcur]
  | some c =>
      obtain ⟨hlt, -⟩ := h.behind c hcur
      have hnode : ba.nodeAt c = ba.cur := by rw [ByteArray.nodeAt, if_pos hlt, hcur]
      have hloop : ByteArray.consumeLoop (ba.nodes.drop c) (ba.position % ba.baseSize) 0 =
          .ok ([], 0) := by
        rw [List.drop_eq_getElem_cons hlt, ByteArray.consumeLoop, if_pos rfl]
      rw [ByteArray.read, if_neg (Nat.not_lt_zero _), hcur]
      simp only [hloop, Nat.add_zero, hnode, reduceCtorEq, if_false]

theorem read_pos (h : Trailing B ba) {n : ℕ} (hn : 0 < n) (hle : n ≤ ba.getReadSize) :
    ∃ cells ba', ba.read n = .ok (cells, ba') ∧ Trailing B ba' ∧
      ba'.position = ba.position + n ∧ ba'.size = ba.size ∧ ba'.nodes = ba.nodes := by
  rw [h.getReadSize] at hle
  have hsize := h.size_le
  have hroom : ba.position + n ≤ ba.capacity := by omega
  obtain ⟨c, hcur, hlt, hc, hahead⟩ := h.exists_cur hn hroom
  have hloop := consumeLoop_spec h.base_pos (h.uniform.drop c)
    (Nat.mod_lt ba.position h.base_pos) hn hahead
  have hk : (if 0 < ba.position % B ∧ ba.position % B + n = B then 0
      else (ba.position % B + n) / B) ≤ (ba.position % B + n) / B := by
    split_ifs
    · exact Nat.zero_le _
    · exact le_rfl
  have hrun : ba.read n = .ok (((contents (ba.nodes.drop c)).drop (ba.position % B)).take n,
      { ba with
        position := ba.position + n
        cur := ba.nodeAt (c + if 0 < ba.position % B ∧ ba.position % B + n = B then 0
          else (ba.position % B + n) / B) }) := by
    rw [ByteArray.read, if_neg (by rw [h.getReadSize]; omega), hcur]
    simp only [h.base, hloop]
  refine ⟨_, _, hrun, h.advance hc hk hroom ?_ rfl rfl rfl, rfl, rfl, rfl⟩
  exact ⟨h.base_pos, h.base, h.aligned.root, h.uniform, h.capacity,
    by dsimp only [ByteArray.aligned]; omega, hsize, rfl⟩

theorem receive (h : Trailing B ba) {len : ℕ} {got : List UInt8} {ba' : ByteArray}
    (hrun : ba.receive len got = .ok ba') : Trailing B ba' := by
  obtain ⟨hga, -⟩ := h.addCapacity len
  unfold ByteArray.receive ByteArray.getWriteBuffers at hrun
  by_cases hlen : len = 0
  · rw [if_pos hlen] at hrun
    obtain rfl := Except.ok.inj hrun
    exact h
  rw [if_neg hlen] at hrun
  set ga := ba.addCapacity len
  dsimp only at hrun
  cases hcur : ga.cur with
  | none =>
      rw [hcur] at hrun
      cases hrun
  | some c =>
      rw [hcur, hga.base] at hrun
      dsimp only at hrun
      cases hloop : buffersLoop c (ga.nodes.drop c) (ga.position % B) len with
      | error e =>
          rw [hloop] at hrun
          cases hrun
      | ok vs =>
          rw [hloop] at hrun
          obtain rfl := Except.ok.inj hrun
          have hfits := buffersLoop_fits (hga.uniform.drop c)
            (Nat.mod_lt ga.position hga.base_pos).le hloop
          obtain ⟨hu, hnodes⟩ := scatter_uniform got hga.uniform hfits
          have hroot : scatter ga.nodes vs got ≠ [] := by
            rw [← List.length_pos_iff, hnodes]
            exact List.length_pos_iff.mpr hga.aligned.root
          refine ⟨⟨hga.base_pos, hga.base, hroot, hu, ?_, hga.position_le, hga.size_le, rfl⟩,
            hga.null, fun d hd => ?_⟩
          · dsimp only [ByteArray.aligned]
            rw [hnodes, hga.capacity]
          · dsimp only
            rw [hnodes]
            exact hga.behind d hd

end Trailing

/-- What a consuming read returns, if it returns. -/
theorem Trailing.of_read {B n : ℕ} {ba : ByteArray} (h : Trailing B ba)
    {r : List Cell × ByteArray} (hrun : ba.read n = .ok r) : Trailing B r.2 := by
  rcases Nat.lt_or_ge ba.getReadSize n with hlt | hle
  · rw [read_eq_throw hlt] at hrun
    cases hrun
  rcases Nat.eq_zero_or_pos n with rfl | hn
  · rw [h.read_zero] at hrun
    split_ifs at hrun
    obtain rfl := Except.ok.inj hrun
    exact h
  · obtain ⟨cells, bb, hread, hbb, -⟩ := h.read_pos hn hle
    obtain rfl := Except.ok.inj (hread.symm.trans hrun)
    exact hbb

theorem use_trailing {B : ℕ} (ba : ByteArray) (u : Use) (ba' : ByteArray) (h : Trailing B ba)
    (hstep : ba.use u = some ba') : Trailing B ba' := by
  cases u with
  | write buf =>
      refine settle_keeps h (fun bb hbb => ?_) hstep
      obtain ⟨bb', hrun, hbb'⟩ := h.write_returns buf
      obtain rfl := Except.ok.inj (hrun.symm.trans hbb)
      exact hbb'
  | clear =>
      obtain rfl := Option.some.inj hstep
      exact (clear_refines h.aligned.toRefines).coherent.trailing
  | setPosition p =>
      -- the seek starts at the root and does not look at the cursor
      have haligned : (ba.aligned B).setPosition p = ba.setPosition p := rfl
      refine settle_keeps h (fun bb hbb => ?_) hstep
      exact (h.aligned.of_setPosition (haligned.trans hbb)).trailing
  | read n =>
      refine settle_keeps h (fun bb hbb => ?_) hstep
      cases hread : ba.read n with
      | error e =>
          rw [hread] at hbb
          cases hbb
      | ok r =>
          rw [hread] at hbb
          obtain rfl := Except.ok.inj hbb
          exact h.of_read hread
  | receive len got => exact settle_keeps h (fun bb => h.receive) hstep

theorem run_trailing {B : ℕ} (hB : 1 ≤ B) {uses : List Use} {ba : ByteArray}
    (hrun : run ByteArray.use (ByteArray.new B) uses = some ba) : Trailing B ba :=
  run_preserves (Trailing B) use_trailing (new_coherent hB).trailing hrun

/-! ### One read -/

/-- The call ends in the exception. -/
def Throws {α : Type} (r : Except Fault α) : Prop := ∃ what, r = .error (.outOfRange what)

/-- `read(buf, n, p)` throws if and only if the bytes are not all there, and does not
dereference null. -/
def ReadAtChecked (ba : ByteArray) (n p : ℕ) : Prop :=
  ba.readAt n p ≠ .error .nullDeref ∧
    (Throws (ba.readAt n p) ↔ ba.size < p ∨ ba.size - p < n)

/-- The same of `read(buf, n)`. -/
def ReadChecked (ba : ByteArray) (n : ℕ) : Prop :=
  ba.read n ≠ .error .nullDeref ∧ (Throws (ba.read n) ↔ ba.size - ba.position < n)

theorem readLoop_ne_throw {chain : List Node} {npos size : ℕ} {what : String} :
    ByteArray.readLoop chain npos size ≠ .error (.outOfRange what) := by
  induction chain generalizing npos size with
  | nil => simp [ByteArray.readLoop]
  | cons n next ih =>
      rw [ByteArray.readLoop]
      split_ifs
      · simp
      · simp
      · cases hrest : ByteArray.readLoop next 0 (size - (n.size - npos)) with
        | ok more => simp
        | error e =>
            intro heq
            exact ih (hrest.trans heq)

namespace Trailing

variable {B : ℕ} {ba : ByteArray}

/-- A positional read that passes its check inside the size. -/
theorem readAt_inside (h : Trailing B ba) {n p : ℕ} (hp : p ≤ ba.size) (hn : n ≤ ba.size - p) :
    ba.readAt n p = .error .nullDeref ∧ n = 0 ∧ p = ba.capacity ∨
      (n = 0 → p < ba.capacity) ∧ ∃ cells, ba.readAt n p = .ok cells := by
  have hsize := h.size_le
  rcases Nat.eq_zero_or_pos n with rfl | hpos
  · have hcheck : ba.readAt 0 p = ByteArray.readLoop (ba.nodes.drop (p / B)) (p % B) 0 := by
      rw [ByteArray.readAt, if_neg (Nat.not_lt_zero _), h.base]
    rcases Nat.lt_or_ge p ba.capacity with hlt | hge
    · have hdiv : p / B < ba.nodes.length := h.aligned.div_lt (p := p) hlt
      refine .inr ⟨fun _ => hlt, [], ?_⟩
      rw [hcheck, List.drop_eq_getElem_cons hdiv, ByteArray.readLoop, if_pos rfl]
    · have hend : p = B * ba.nodes.length := (Nat.le_antisymm (hp.trans hsize) hge).trans h.capacity
      refine .inl ⟨?_, rfl, by omega⟩
      rw [hcheck, hend, Nat.mul_div_cancel_left _ h.base_pos, List.drop_length,
        ByteArray.readLoop]
  · exact .inr ⟨by omega, _, h.aligned.readAt_eq hpos (p := p)
      (by dsimp only [ByteArray.aligned]; omega)⟩

theorem readAtChecked_iff (h : Trailing B ba) (n : ℕ) {p : ℕ} (hp : p < 2 ^ 64) :
    ReadAtChecked ba n p ↔
      p ≤ ba.size ∧ (n = 0 → p < ba.capacity) ∨ ba.size < p ∧ 2 ^ 64 + ba.size < n + p := by
  rcases Nat.lt_or_ge ba.size p with hpast | hin
  · -- the difference has wrapped: only a read of almost the whole address space is refused
    have hsub : sizeSub ba.size p = 2 ^ 64 + ba.size - p := if_neg (by omega)
    by_cases hbig : 2 ^ 64 + ba.size < n + p
    · have hthrow : ba.readAt n p = .error (.outOfRange "not enough data to read") :=
        if_pos (by omega)
      refine iff_of_true ?_ (.inr ⟨hpast, hbig⟩)
      rw [ReadAtChecked, hthrow]
      exact ⟨by simp, iff_of_true ⟨_, rfl⟩ (.inl hpast)⟩
    · refine iff_of_false ?_ (by omega)
      rintro ⟨hnull, hthrows⟩
      obtain ⟨what, hthrow⟩ := hthrows.mpr (.inl hpast)
      rw [ByteArray.readAt, if_neg (by omega)] at hthrow
      exact readLoop_ne_throw hthrow
  · by_cases hfew : ba.size - p < n
    · have hthrow : ba.readAt n p = .error (.outOfRange "not enough data to read") :=
        if_pos (by rw [sizeSub_of_le hin]; exact hfew)
      refine iff_of_true ?_ (.inl ⟨hin, by omega⟩)
      rw [ReadAtChecked, hthrow]
      exact ⟨by simp, iff_of_true ⟨_, rfl⟩ (.inr hfew)⟩
    · have hinside := h.readAt_inside hin (Nat.le_of_not_lt hfew)
      rcases hinside with ⟨hnull, rfl, rfl⟩ | ⟨hzero, cells, hok⟩
      · refine iff_of_false (fun hchecked => hchecked.1 hnull) ?_
        rintro (⟨-, hlt⟩ | ⟨hlt, -⟩)
        · exact lt_irrefl _ (hlt rfl)
        · omega
      · refine iff_of_true ?_ (.inl ⟨hin, hzero⟩)
        rw [ReadAtChecked, hok]
        refine ⟨by simp, iff_of_false ?_ (by omega)⟩
        rintro ⟨what, heq⟩
        cases heq

theorem readChecked_iff (h : Trailing B ba) (n : ℕ) :
    ReadChecked ba n ↔ (n = 0 → ba.cur ≠ none) := by
  have hsize := h.getReadSize
  rcases Nat.lt_or_ge ba.getReadSize n with hlt | hle
  · refine iff_of_true ?_ (by omega)
    rw [ReadChecked, read_eq_throw hlt]
    exact ⟨by simp, iff_of_true ⟨_, rfl⟩ (by omega)⟩
  rcases Nat.eq_zero_or_pos n with rfl | hn
  · rw [ReadChecked, h.read_zero]
    split_ifs with hcur
    · simp [hcur]
    · simp [hcur, Throws]
  · obtain ⟨cells, ba', hrun, -⟩ := h.read_pos hn hle
    refine iff_of_true ?_ (by omega)
    rw [ReadChecked, hrun]
    refine ⟨by simp, iff_of_false ?_ (by omega)⟩
    rintro ⟨what, heq⟩
    cases heq

/-- `toString` returns exactly when the position is below the full capacity. -/
theorem toString_returns_iff (h : Trailing B ba) :
    (∃ cells, ba.toString = .ok cells) ↔ ba.position < ba.capacity := by
  have hpos := h.position_le
  have hsize := h.size_le
  have hread := h.getReadSize
  rcases h.readAt_inside hpos hread.le with ⟨hnull, hzero, hend⟩ | ⟨hlt, hok⟩
  · refine iff_of_false ?_ (by omega)
    rintro ⟨cells, hcells⟩
    rw [ByteArray.toString, hnull] at hcells
    cases hcells
  · refine iff_of_true hok ?_
    rcases Nat.eq_zero_or_pos ba.getReadSize with hzero | hpos
    · exact hlt hzero
    · omega

end Trailing

/-! ### Typed reads -/

/-- A typed read: consuming reads, each chosen from the bytes before it, and a result. -/
inductive Reader (α : Type)
  | done (a : α)
  | read (n : ℕ) (next : List Cell → Reader α)

namespace Reader

open ByteOrder ByteArrayCodec

def bind {α β : Type} : Reader α → (α → Reader β) → Reader β
  | done a, f => f a
  | read n next, f => read n fun cells => (next cells).bind f

instance : Monad Reader where
  pure := done
  bind := bind

variable {α β : Type}

/-- The outcome, and the array that the caller is left with: the exception of a later read
finds the earlier ones consumed. -/
def run : Reader α → ByteArray → Except Fault α × ByteArray
  | done a, ba => (.ok a, ba)
  | read n next, ba =>
      match ba.read n with
      | .error e => (.error e, ba)
      | .ok (cells, ba') => (next cells).run ba'

/-- The same read on the bytes that the codecs see. -/
def onBytes : Reader α → Bytes → Except Fault (α × Bytes)
  | done a, bs => .ok (a, bs)
  | read n next, bs =>
      match ByteArrayCodec.read n bs with
      | .error e => .error e
      | .ok (buf, bs) => (next (buf.val.map some)).onBytes bs

section Calls

variable (native endian : Endian) (junk : ℕ → UInt8)

/-- The bytes that a read copies; a cell never written holds anything. -/
def bytesOf (cells : List Cell) : Bytes := cells.mapIdx fun i c => c.getD (junk i)

def readFixed (n : ℕ) : Reader ℕ :=
  read n fun cells => done (endianCastByType native n (load native (bytesOf junk cells)) endian)

def readFuint8 : Reader UInt8 :=
  read 1 fun cells => done (UInt8.ofNat (load native (bytesOf junk cells)))

def readUint64From (i : ℕ) (ans : UInt64) : Reader UInt64 :=
  if i < 64 then do
    let b ← readFuint8 native junk
    if b &&& 0x80 ≠ 0 then
      readUint64From (i + 7) (ans ||| (b &&& 0x7F).toUInt64 <<< UInt64.ofNat i)
    else pure (ans ||| b.toUInt64 <<< UInt64.ofNat i)
  else pure ans
termination_by 64 - i

def readText (len : UInt64) : Reader Bytes := read len.toNat fun cells => done (bytesOf junk cells)

def readStringF16 : Reader Bytes := do
  let len ← readFixed native endian junk 2
  readText junk (UInt16.ofNat len).toInt16.toUInt16.toUInt64

def readStringF32 : Reader Bytes := do
  let len ← readFixed native endian junk 4
  readText junk (UInt32.ofNat len).toInt32.toUInt32.toUInt64

def readStringF64 : Reader Bytes := do
  let len ← readFixed native endian junk 2
  readText junk (UInt16.ofNat len).toInt16.toInt64.toUInt64

def readStringVint : Reader Bytes := do
  let len ← readUint64From native junk 0 0
  readText junk len

end Calls

/-! On written bytes these are the reads of the codecs. -/

theorem onBytes_bind (r : Reader α) (f : α → Reader β) (bs : Bytes) :
    (r >>= f).onBytes bs = r.onBytes bs >>= fun p => (f p.1).onBytes p.2 := by
  induction r generalizing bs with
  | done a => rfl
  | read n next ih =>
      change ((read n next).bind f).onBytes bs = _
      rw [bind, onBytes, onBytes]
      cases ByteArrayCodec.read n bs with
      | error e => rfl
      | ok p => exact ih _ p.2

@[simp] theorem bytesOf_map_some (junk : ℕ → UInt8) (bs : Bytes) :
    bytesOf junk (bs.map some) = bs := by
  apply List.ext_getElem?
  intro i
  simp [bytesOf, List.getElem?_mapIdx]

/-- A read whose bytes are all there to be decoded, on written bytes. -/
theorem onBytes_read (n : ℕ) (f : Bytes → α) (junk : ℕ → UInt8) (bs : Bytes) :
    (read n fun cells => done (f (bytesOf junk cells))).onBytes bs =
      (ByteArrayCodec.read n bs).map fun p => (f p.1.val, p.2) := by
  rw [onBytes]
  cases ByteArrayCodec.read n bs with
  | error e => rfl
  | ok p => simp [onBytes, Except.map]

theorem onBytes_readText (junk : ℕ → UInt8) (len : UInt64) (bs : Bytes) :
    (readText junk len).onBytes bs =
      (ByteArrayCodec.readText len bs).map fun p => (p.1.val, p.2) := by
  rw [readText, onBytes_read _ fun buf => buf, ByteArrayCodec.readText]
  cases ByteArrayCodec.read len.toNat bs <;> rfl

theorem onBytes_readFixed (native endian : Endian) (junk : ℕ → UInt8) (n : ℕ) (bs : Bytes) :
    (readFixed native endian junk n).onBytes bs = ByteArrayCodec.readFixed native endian n bs := by
  rw [readFixed, onBytes_read _ fun buf => endianCastByType native n (load native buf) endian,
    ByteArrayCodec.readFixed]
  cases ByteArrayCodec.read n bs <;> rfl

theorem onBytes_readUint64From (native : Endian) (junk : ℕ → UInt8) (i : ℕ) (ans : UInt64)
    (bs : Bytes) : (readUint64From native junk i ans).onBytes bs =
      ByteArrayCodec.readUint64From native i ans bs := by
  induction i, ans using readUint64From.induct generalizing bs with
  | case1 i ans hi ih =>
      rw [readUint64From, ByteArrayCodec.readUint64From, if_pos hi, if_pos hi, onBytes_bind,
        readFuint8, onBytes_read _ fun buf => UInt8.ofNat (load native buf),
        ByteArrayCodec.readFuint8]
      cases ByteArrayCodec.read 1 bs with
      | error e => rfl
      | ok p =>
          change Reader.onBytes (if _ then _ else _) p.2 = if _ then _ else _
          split_ifs with hmore
          · exact ih _ p.2
          · rfl
  | case2 i ans hi =>
      rw [readUint64From, ByteArrayCodec.readUint64From, if_neg hi, if_neg hi]
      rfl

/-- A string behind a length, on written bytes. -/
theorem onBytes_prefixed {γ : Type} (r : Reader γ) (f : γ → UInt64) (junk : ℕ → UInt8)
    (bs : Bytes) :
    (do let len ← r; readText junk (f len)).onBytes bs =
      (r.onBytes bs >>= fun p => ByteArrayCodec.readText (f p.1) p.2).map
        fun p => (p.1.val, p.2) := by
  rw [onBytes_bind]
  cases r.onBytes bs with
  | error e => rfl
  | ok p => exact onBytes_readText junk (f p.1) p.2

theorem onBytes_readStringF16 (native endian : Endian) (junk : ℕ → UInt8) (bs : Bytes) :
    (readStringF16 native endian junk).onBytes bs =
      (ByteArrayCodec.readStringF16 native endian bs).map fun p => (p.1.val, p.2) := by
  rw [readStringF16, onBytes_prefixed _ fun len => (UInt16.ofNat len).toInt16.toUInt16.toUInt64,
    onBytes_readFixed, ByteArrayCodec.readStringF16, ByteArrayCodec.readFint16]
  cases ByteArrayCodec.readFixed native endian 2 bs <;> rfl

theorem onBytes_readStringF32 (native endian : Endian) (junk : ℕ → UInt8) (bs : Bytes) :
    (readStringF32 native endian junk).onBytes bs =
      (ByteArrayCodec.readStringF32 native endian bs).map fun p => (p.1.val, p.2) := by
  rw [readStringF32, onBytes_prefixed _ fun len => (UInt32.ofNat len).toInt32.toUInt32.toUInt64,
    onBytes_readFixed, ByteArrayCodec.readStringF32, ByteArrayCodec.readFint32]
  cases ByteArrayCodec.readFixed native endian 4 bs <;> rfl

theorem onBytes_readStringF64 (native endian : Endian) (junk : ℕ → UInt8) (bs : Bytes) :
    (readStringF64 native endian junk).onBytes bs =
      (ByteArrayCodec.readStringF64 native endian bs).map fun p => (p.1.val, p.2) := by
  rw [readStringF64, onBytes_prefixed _ fun len => (UInt16.ofNat len).toInt16.toInt64.toUInt64,
    onBytes_readFixed, ByteArrayCodec.readStringF64, ByteArrayCodec.readFint16]
  cases ByteArrayCodec.readFixed native endian 2 bs <;> rfl

theorem onBytes_readStringVint (native : Endian) (junk : ℕ → UInt8) (bs : Bytes) :
    (readStringVint native junk).onBytes bs =
      (ByteArrayCodec.readStringVint native bs).map fun p => (p.1.val, p.2) := by
  rw [readStringVint, onBytes_prefixed _ fun len => len, onBytes_readUint64From]
  rfl

/-! ### When a typed read is exact -/

/-- The call does not dereference null, and if it throws then the position and the contents
are as before. -/
def Checked (r : Reader α) (ba : ByteArray) : Prop :=
  (r.run ba).1 ≠ .error .nullDeref ∧
    (Throws (r.run ba).1 → (r.run ba).2.position = ba.position ∧ (r.run ba).2.size = ba.size ∧
      contents (r.run ba).2.nodes = contents ba.nodes)

/-- No read of the call is empty where the cursor is null, and one that finds too few bytes
comes before any byte was consumed; `consumed` says whether there was one already. -/
def Careful : Bool → Reader α → ByteArray → Prop
  | _, done _, _ => True
  | consumed, read n next, ba =>
      (n = 0 → ba.cur ≠ none) ∧ (ba.getReadSize < n → consumed = false) ∧
        ∀ r ∈ (ba.read n).toOption, Careful (consumed || 0 < n) (next r.1) r.2

instance decidableCareful :
    (consumed : Bool) → (r : Reader α) → (ba : ByteArray) → Decidable (r.Careful consumed ba)
  | _, done _, _ => isTrue trivial
  | consumed, read n next, ba =>
      haveI := fun (r : List Cell × ByteArray) =>
        decidableCareful (consumed || 0 < n) (next r.1) r.2
      inferInstanceAs (Decidable ((n = 0 → ba.cur ≠ none) ∧
        (ba.getReadSize < n → consumed = false) ∧
        ∀ r ∈ (ba.read n).toOption, Careful (consumed || 0 < n) (next r.1) r.2))

/-- `Checked` and `Careful` in the middle of a call that began in `start`. -/
theorem run_checked_iff {B : ℕ} (r : Reader α) {start ba : ByteArray} (h : Trailing B ba)
    (hpos : start.position ≤ ba.position) (hsize : ba.size = start.size)
    (hnodes : ba.nodes = start.nodes) :
    ((r.run ba).1 ≠ .error .nullDeref ∧
      (Throws (r.run ba).1 → (r.run ba).2.position = start.position ∧
        (r.run ba).2.size = start.size ∧
        contents (r.run ba).2.nodes = contents start.nodes)) ↔
      r.Careful (decide (start.position < ba.position)) ba := by
  induction r generalizing ba with
  | done a => simp [run, Careful, Throws]
  | read n next ih =>
      rcases Nat.lt_or_ge ba.getReadSize n with hlt | hle
      · have hn : n ≠ 0 := by omega
        have hrun : (read n next).run ba =
            (.error (.outOfRange "not enough data to read"), ba) := by
          rw [run, read_eq_throw hlt]
        have hcareful : (read n next).Careful (decide (start.position < ba.position)) ba ↔
            ¬start.position < ba.position := by
          simp [Careful, read_eq_throw hlt, hn, hlt, Except.toOption]
        rw [hrun, hcareful]
        simp only [Throws, hsize, hnodes, Except.error.injEq, Fault.outOfRange.injEq, exists_eq',
          forall_const, and_true, ne_eq, reduceCtorEq, not_false_eq_true, true_and]
        omega
      rcases Nat.eq_zero_or_pos n with rfl | hn
      · by_cases hcur : ba.cur = none
        · simp [run, Careful, h.read_zero, hcur]
        · have hread := h.read_zero
          rw [if_neg hcur] at hread
          have hstep := ih [] h hpos hsize hnodes
          simp only [run, Careful, hread, Except.toOption]
          rw [hstep]
          simp [hcur]
      · obtain ⟨cells, ba', hread, h', hpos', hsize', hnodes'⟩ := h.read_pos hn hle
        have hstep := ih cells h' (by omega) (hsize'.trans hsize) (hnodes'.trans hnodes)
        have hmoved : start.position < ba'.position := by omega
        rw [decide_eq_true hmoved] at hstep
        simp only [run, Careful, hread, Except.toOption]
        rw [hstep]
        have hzero : n ≠ 0 := by omega
        simp [hn, hzero, Nat.not_lt.mpr hle]

theorem checked_iff_careful {B : ℕ} (r : Reader α) {ba : ByteArray} (h : Trailing B ba) :
    r.Checked ba ↔ r.Careful false ba := by
  have hiff := run_checked_iff r h le_rfl rfl rfl
  simpa only [Checked, lt_irrefl, decide_false] using hiff

end Reader

/-- When the bounds checks are exact, in every array that a caller can reach. A positional read
is exact at a position inside the size, unless it is empty and at the full capacity, and past
the size only if it asks for enough to exceed the wrapped difference; a consuming read, unless
it is empty and the cursor is null; `toString`, below the full capacity; and a typed read, if
its reads are careful. -/
theorem bounds_checks_exact_iff (B : ℕ) (hB : 1 ≤ B) (uses : List Use) (ba : ByteArray)
    (hrun : run ByteArray.use (ByteArray.new B) uses = some ba) :
    (∀ n p, p < 2 ^ 64 → (ReadAtChecked ba n p ↔
      p ≤ ba.size ∧ (n = 0 → p < ba.capacity) ∨ ba.size < p ∧ 2 ^ 64 + ba.size < n + p)) ∧
    (∀ n, ReadChecked ba n ↔ (n = 0 → ba.cur ≠ none)) ∧
    ((∃ cells, ba.toString = .ok cells) ↔ ba.position < ba.capacity) ∧
    ∀ (α : Type) (r : Reader α), r.Checked ba ↔ r.Careful false ba := by
  have h := run_trailing hB hrun
  exact ⟨fun n p hp => h.readAtChecked_iff n hp, h.readChecked_iff, h.toString_returns_iff,
    fun α r => r.checked_iff_careful h⟩

/-- Base size four and a string of two bytes behind its length: every kind of read is exact. -/
theorem bounds_checks_exact_inside :
    ∃ ba, run ByteArray.use (ByteArray.new 4) [.write [2, 0, 7, 8, 9], .setPosition 0] =
        some ba ∧
      ReadAtChecked ba 2 4 ∧ ReadChecked ba 0 ∧ (∃ cells, ba.toString = .ok cells) ∧
      (Reader.readStringF16 .little .little fun _ => 0).Checked ba := by
  have hrun : run ByteArray.use (ByteArray.new 4) [.write [2, 0, 7, 8, 9], .setPosition 0] =
      some ⟨0, 4, 8, 5, [⟨[some 2, some 0, some 7, some 8]⟩, ⟨[some 9, none, none, none]⟩],
        some 0⟩ := by decide
  obtain ⟨hat, hread, hstring, htyped⟩ := bounds_checks_exact_iff 4 (by decide) _ _ hrun
  exact ⟨_, hrun, (hat 2 4 (by decide)).mpr (by decide), (hread 0).mpr (by decide),
    hstring.mpr (by decide), (htyped _ _).mpr (by decide)⟩

/-- A full node of two bytes: empty reads and `toString` dereference null, and so does a read
past the size, which should throw. Three bytes in a node of eight: a read past the size
returns, and a string cut short throws with its length consumed. -/
theorem bounds_checks_miss :
    (∃ ba, run ByteArray.use (ByteArray.new 2) [.write [1, 2]] = some ba ∧
      ba.read 0 = .error .nullDeref ∧ ba.readAt 0 2 = .error .nullDeref ∧
      ba.toString = .error .nullDeref ∧ ba.readAt 1 3 = .error .nullDeref ∧
      ¬ReadChecked ba 0 ∧ ¬ReadAtChecked ba 0 2 ∧ ¬ReadAtChecked ba 1 3) ∧
    ∃ ba ba', run ByteArray.use (ByteArray.new 8) [.write [5, 0, 9], .setPosition 0] = some ba ∧
      ba.size < 4 ∧ ba.readAt 1 4 = .ok [none] ∧
      (Reader.readStringF16 .little .little fun _ => 0).run ba =
        (.error (.outOfRange "not enough data to read"), ba') ∧
      ba.position = 0 ∧ ba'.position = 2 ∧
      ¬(Reader.readStringF16 .little .little fun _ => 0).Checked ba := by
  refine ⟨⟨⟨2, 2, 2, 2, [⟨[some 1, some 2]⟩], none⟩, by decide, rfl, rfl, rfl, rfl, ?_, ?_, ?_⟩, ?_⟩
  · exact fun hchecked => hchecked.1 rfl
  · exact fun hchecked => hchecked.1 rfl
  · exact fun hchecked => hchecked.1 rfl
  · refine ⟨⟨0, 8, 8, 3, [⟨[some 5, some 0, some 9, none, none, none, none, none]⟩], some 0⟩,
      ⟨2, 8, 8, 3, [⟨[some 5, some 0, some 9, none, none, none, none, none]⟩], some 0⟩,
      by decide, by decide, by decide, rfl, rfl, rfl, fun hchecked => ?_⟩
    obtain ⟨hpos, -⟩ := hchecked.2 ⟨_, rfl⟩
    cases hpos

end Xzmjx.ByteArrayModel
