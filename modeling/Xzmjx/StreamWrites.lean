import Xzmjx.StreamReads

/-!
# Writing a fixed number of bytes

`writeFixedSize` gives every write the whole buffer from its start, so after a
short write the first bytes go out again. `writeFixedSize` from a byte array
passes the number of bytes where `sendmsg` expects the number of buffers; a view
has at most two, so almost every call reads past the vector.
-/
namespace Xzmjx.StreamModel
open BlockList ByteArrayModel

namespace Stream

variable {s : Stream}

/-- A write that is accepted puts a portion of the bytes on the wire. -/
theorem send_eq (hacc : ∀ k ∈ s.accepts, 0 < k) (bytes : Bytes) :
    s.send bytes = (((bytes.take (s.accepts.headD bytes.length)).length : ℤ),
      { s with accepts := s.accepts.tail
               sent := s.sent ++ bytes.take (s.accepts.headD bytes.length) }) := by
  cases ha : s.accepts with
  | nil => simp [send, ha]
  | cons k ks =>
      have hk := hacc k (by simp [ha])
      cases k with
      | zero => omega
      | succ k => simp [send, ha]

theorem send_sent (bytes : Bytes) : s.sent <+: (s.send bytes).2.sent := by
  unfold send
  split
  · exact List.prefix_append _ _
  · exact List.prefix_rfl
  · exact List.prefix_append _ _

theorem write_sent {buf : Bytes} {length : ℕ} {rt : ℤ} {s' : Stream}
    (h : s.write buf length = .ok (rt, s')) : s.sent <+: s'.sent := by
  unfold write at h
  split_ifs at h
  · have hsend := Except.ok.inj h
    rw [show s' = (s.send (buf.take length)).2 by rw [hsend]]
    exact send_sent _
  · cases h
    exact List.prefix_rfl

/-- A write leaves the other direction as it is. -/
theorem send_receives (bytes : Bytes) :
    (s.send bytes).2.incoming = s.incoming ∧ (s.send bytes).2.connected = s.connected := by
  unfold send
  split <;> exact ⟨rfl, rfl⟩

theorem write_receives {buf : Bytes} {length : ℕ} {rt : ℤ} {s' : Stream}
    (h : s.write buf length = .ok (rt, s')) :
    s'.incoming = s.incoming ∧ s'.connected = s.connected := by
  unfold write at h
  split_ifs at h
  · have hsend := Except.ok.inj h
    rw [show s' = (s.send (buf.take length)).2 by rw [hsend]]
    exact send_receives _
  · cases h
    exact ⟨rfl, rfl⟩

/-! ### From a buffer -/

theorem writeFixedSizeFrom_done (buf : Bytes) (length : ℕ) {left : ℤ} (hleft : left ≤ 0) :
    writeFixedSizeFrom buf length left s = .ok (toInt length, s) := by
  rw [writeFixedSizeFrom, if_neg (by omega)]

/-- What is on the wire stays there. -/
theorem writeFixedSizeFrom_sent {buf : Bytes} {length : ℕ} {left rt : ℤ} {s' : Stream}
    (h : writeFixedSizeFrom buf length left s = .ok (rt, s')) : s.sent <+: s'.sent := by
  fun_induction writeFixedSizeFrom buf length left s with
  | case1 left s hleft e hwrite => cases h
  | case2 left s hleft r t hwrite hr =>
      cases h
      exact write_sent hwrite
  | case3 left s hleft r t hwrite hr ih => exact (write_sent hwrite).trans (ih h)
  | case4 left s hleft =>
      simp only [Except.ok.injEq, Prod.mk.injEq] at h
      exact h.2 ▸ List.prefix_rfl

theorem writeFixedSizeFrom_receives {buf : Bytes} {length : ℕ} {left rt : ℤ} {s' : Stream}
    (h : writeFixedSizeFrom buf length left s = .ok (rt, s')) :
    s'.incoming = s.incoming ∧ s'.connected = s.connected := by
  fun_induction writeFixedSizeFrom buf length left s with
  | case1 left s hleft e hwrite => cases h
  | case2 left s hleft r t hwrite hr =>
      cases h
      exact write_receives hwrite
  | case3 left s hleft r t hwrite hr ih =>
      have hfirst := write_receives hwrite
      exact ⟨(ih h).1.trans hfirst.1, (ih h).2.trans hfirst.2⟩
  | case4 left s hleft =>
      simp only [Except.ok.injEq, Prod.mk.injEq] at h
      exact h.2 ▸ ⟨rfl, rfl⟩

/-- A call on a buffer of the length it is given does not fault. -/
theorem exists_writeFixedSizeFrom (buf : Bytes) (left : ℤ) (s : Stream) :
    ∃ rt s', writeFixedSizeFrom buf buf.length left s = .ok (rt, s') := by
  generalize hlen : buf.length = n
  fun_induction writeFixedSizeFrom buf n left s with
  | case1 left s hleft e hwrite =>
      simp only [write] at hwrite
      split_ifs at hwrite
      omega
  | case2 left s hleft r t hwrite hr => exact ⟨_, _, rfl⟩
  | case3 left s hleft r t hwrite hr ih => exact ih
  | case4 left s hleft => exact ⟨_, _, rfl⟩

theorem write_eq (hc : s.connected = true) (hacc : ∀ k ∈ s.accepts, 0 < k) (buf : Bytes) :
    s.write buf buf.length = .ok (((buf.take (s.accepts.headD buf.length)).length : ℤ),
      { s with accepts := s.accepts.tail
               sent := s.sent ++ buf.take (s.accepts.headD buf.length) }) := by
  rw [write, if_pos hc, if_neg (Nat.lt_irrefl _), List.take_length, send_eq hacc]

theorem headD_pos {ks : List ℕ} (h : ∀ k ∈ ks, 0 < k) {n : ℕ} (hn : 0 < n) : 0 < ks.headD n := by
  cases ks with
  | nil => exact hn
  | cons k ks => exact h k (by simp)

/-- The first portion of a call, and how the loop goes on after it. -/
theorem writeFixedSizeFrom_next {buf : Bytes} (left : ℤ) (hc : s.connected = true)
    (hacc : ∀ k ∈ s.accepts, 0 < k) (hleft : 0 < left) (hbuf : 0 < buf.length) :
    writeFixedSizeFrom buf buf.length left s =
      writeFixedSizeFrom buf buf.length
        (left - ((buf.take (s.accepts.headD buf.length)).length : ℤ))
        { s with accepts := s.accepts.tail
                 sent := s.sent ++ buf.take (s.accepts.headD buf.length) } := by
  have hpos := headD_pos hacc hbuf
  rw [writeFixedSizeFrom, if_pos hleft, write_eq hc hacc]
  dsimp only
  rw [if_neg (by rw [List.length_take]; omega)]

/-- A socket that accepts every write whole. -/
theorem writeFixedSize_whole {buf : Bytes} (hc : s.connected = true) (hacc : s.accepts = [])
    (hbuf : buf ≠ []) (hn : buf.length < 2 ^ 31) :
    s.writeFixedSize buf buf.length = .ok ((buf.length : ℤ), { s with sent := s.sent ++ buf }) := by
  have hpos := List.length_pos_iff.mpr hbuf
  rw [writeFixedSize, toInt_of_lt hn,
    writeFixedSizeFrom_next _ hc (by simp [hacc]) (by omega) hpos]
  simp only [hacc, List.headD_nil, List.take_length, List.tail_nil]
  rw [writeFixedSizeFrom_done _ _ (by omega), toInt_of_lt hn]

/-- The whole buffer goes out once, and the call returns its length. -/
def WritesExactly (s : Stream) (n : ℕ) : Prop :=
  ∀ buf : Bytes, buf.length = n → ∃ s', s.writeFixedSize buf n = .ok ((n : ℤ), s') ∧
    s'.sent = s.sent ++ buf

/-- The write after a short one begins with the first byte again. -/
theorem writesExactly_iff (hc : s.connected = true) (hacc : ∀ k ∈ s.accepts, 0 < k) {n : ℕ}
    (hn : n < 2 ^ 31) : s.WritesExactly n ↔ n ≤ s.accepts.headD n := by
  rcases Nat.eq_zero_or_pos n with rfl | hpos
  · refine ⟨fun _ => Nat.zero_le _, fun _ buf hbuf => ⟨s, ?_, ?_⟩⟩
    · rw [writeFixedSize, toInt_of_lt hn, writeFixedSizeFrom_done _ _ (by simp), toInt_of_lt hn]
    · rw [List.length_eq_zero_iff.mp hbuf, List.append_nil]
  have hleft : (0 : ℤ) < n := by omega
  constructor
  · intro h
    by_contra hshort
    have hkpos := headD_pos hacc hpos
    set k := s.accepts.headD n with hk
    set buf : Bytes := List.replicate k 0 ++ List.replicate (n - k) 1 with hbuf
    have hlen : buf.length = n := by
      rw [hbuf, List.length_append, List.length_replicate, List.length_replicate]
      omega
    obtain ⟨s', hrun, hsent⟩ := h buf hlen
    have htail : ∀ j ∈ s.accepts.tail, 0 < j := fun j hj => hacc j (List.mem_of_mem_tail hj)
    have hjpos := headD_pos htail hpos
    have htake : (buf.take k).length = k := by rw [List.length_take]; omega
    -- two writes into the call, the wire has `buf.take k` and then `buf` from its start
    have hfirst := writeFixedSizeFrom_next n hc hacc hleft (by omega : 0 < buf.length)
    rw [hlen, ← hk, htake] at hfirst
    have hsecond := writeFixedSizeFrom_next ((n : ℤ) - k)
      (s := { s with accepts := s.accepts.tail, sent := s.sent ++ buf.take k }) hc htail
      (by omega) (by omega : 0 < buf.length)
    rw [hlen] at hsecond
    rw [writeFixedSize, toInt_of_lt hn, hfirst, hsecond] at hrun
    obtain ⟨rest, hrest⟩ := writeFixedSizeFrom_sent hrun
    dsimp only at hrest
    rw [hsent, List.append_assoc, List.append_assoc, List.append_cancel_left_eq] at hrest
    have hzero : (buf.take k ++ (buf.take (s.accepts.tail.headD n) ++ rest))[k]? = some 0 := by
      rw [List.getElem?_append_right (by omega), htake, Nat.sub_self,
        List.getElem?_append_left (by rw [List.length_take]; omega),
        List.getElem?_take_of_lt hjpos, hbuf, List.getElem?_append_left (by simpa using hkpos),
        List.getElem?_replicate_of_lt hkpos]
    have hone : buf[k]? = some 1 := by
      rw [hbuf, List.getElem?_append_right (by simp), List.length_replicate, Nat.sub_self,
        List.getElem?_replicate_of_lt (by omega)]
    rw [hrest, hone] at hzero
    simp at hzero
  · intro hwhole buf hbuf
    subst hbuf
    have htake : buf.take (s.accepts.headD buf.length) = buf := List.take_of_length_le hwhole
    refine ⟨{ s with accepts := s.accepts.tail, sent := s.sent ++ buf }, ?_, rfl⟩
    rw [writeFixedSize, toInt_of_lt hn, writeFixedSizeFrom, if_pos hleft, write_eq hc hacc, htake]
    dsimp only
    rw [if_neg (by omega), writeFixedSizeFrom_done _ _ (by omega), toInt_of_lt hn]

/-! ### From a byte array -/

/-- With fewer buffers than bytes asked for, the vector is read past its end. -/
theorem writeBa_short {B n : ℕ} {ba : ByteArrayModel.ByteArray} (junk : UInt8) {vs : List Iovec}
    (h : Coherent B ba) (hc : s.connected = true) (hread : ba.position < ba.size) (hpos : 0 < n)
    (hvs : buffersLoop (ba.position / B) (ba.nodes.drop (ba.position / B)) (ba.position % B)
      (min n (ba.size - ba.position)) = .ok vs) (hshort : vs.length < n) :
    s.writeBa ba n junk = .error .outOfBounds := by
  rw [writeBa, if_pos hc, getReadBuffers_eq h hread hpos, hvs]
  dsimp only
  rw [if_pos hshort]

/-- With as many buffers as bytes asked for, the bytes of the view are sent and the
position moves behind those accepted. -/
theorem writeBa_view {B n : ℕ} {ba : ByteArrayModel.ByteArray} {f : Flat} (junk : UInt8)
    {vs : List Iovec} (h : Refines B ba f) (hc : s.connected = true)
    (hacc : ∀ k ∈ s.accepts, 0 < k) (hread : ba.position < ba.size) (hpos : 0 < n)
    (hvs : buffersLoop (ba.position / B) (ba.nodes.drop (ba.position / B)) (ba.position % B)
      (min n (ba.size - ba.position)) = .ok vs) (hlen : vs.length = n)
    (hruns : Runs B ba.nodes ba.position vs) (htotal : 0 < total vs) :
    ∃ wire ba', wire = (((contents ba.nodes).drop ba.position).take (total vs)).map
          (fun c => c.getD junk) ∧ wire.length = total vs ∧
      s.writeBa ba n junk = .ok (((wire.take (s.accepts.headD (total vs))).length : ℤ), ba',
        { s with accepts := s.accepts.tail
                 sent := s.sent ++ wire.take (s.accepts.headD (total vs)) }) ∧
      Refines B ba'
        (f.setPosition (ba.position + (wire.take (s.accepts.headD (total vs))).length)) := by
  have hco := h.coherent
  have hend := hruns.le (hco.capacity ▸ hco.position_le_capacity)
  have hcells : (((contents ba.nodes).drop ba.position).take (total vs)).length = total vs := by
    rw [List.length_take, List.length_drop, contents_length hco.uniform]
    omega
  set wire := (((contents ba.nodes).drop ba.position).take (total vs)).map
    (fun c => c.getD junk) with hwire
  have hwlen : wire.length = total vs := by rw [hwire, List.length_map, hcells]
  have hportion : 0 < (wire.take (s.accepts.headD (total vs))).length := by
    have := headD_pos hacc htotal
    rw [List.length_take]
    omega
  obtain ⟨ba', hset, hr⟩ := setPosition_refines h
    (p := ba.position + (wire.take (s.accepts.headD (total vs))).length)
    (by rw [hco.capacity, List.length_take]; omega)
  refine ⟨wire, ba', rfl, hwlen, ?_, hr⟩
  rw [writeBa, if_pos hc, getReadBuffers_eq hco hread hpos, hvs]
  dsimp only
  rw [if_neg (by omega), List.take_of_length_le (by omega), gather_spec hco.uniform hruns, ← hwire,
    send_eq hacc, hwlen]
  dsimp only
  rw [if_pos (by omega), Int.toNat_natCast, hset]

/-- The next `n` bytes of the array go out once, the call returns `n`, and the position
advances by `n`. -/
def EmitsExactly (s : Stream) (ba : ByteArrayModel.ByteArray) (f : Flat) (n : ℕ) (junk : UInt8) :
    Prop :=
  ∃ wire ba' s', s.writeFixedSizeBa ba n junk = .ok ((n : ℤ), ba', s') ∧
    s'.sent = s.sent ++ wire ∧ wire.length = n ∧
    (∀ i b, i < n → f.bytes (f.position + i) = some b → wire[i]? = some b) ∧
    ba'.position = ba.position + n

theorem writeFixedSizeBaFrom_done {ba : ByteArrayModel.ByteArray} {length : ℕ} {junk : UInt8}
    {left : ℤ} (hleft : left ≤ 0) :
    writeFixedSizeBaFrom ba length junk left s = .ok (toInt length, ba, s) := by
  rw [writeFixedSizeBaFrom, if_neg (by omega)]

/-- A view of the array shows the bytes that were written to it. -/
theorem wire_getElem? {B m : ℕ} {ba : ByteArrayModel.ByteArray} {f : Flat} {junk b : UInt8}
    {i : ℕ} (h : Refines B ba f) (hi : i < m) (hb : f.bytes (f.position + i) = some b) :
    ((((contents ba.nodes).drop ba.position).take m).map fun c => c.getD junk)[i]? = some b := by
  rw [List.getElem?_map, List.getElem?_take_of_lt hi, List.getElem?_drop, h.position,
    h.stores _ _ hb]
  rfl

section Emits

variable {B n : ℕ} {ba : ByteArrayModel.ByteArray} {f : Flat} {junk : UInt8}

/-- A call whose first write faults does not return. -/
theorem not_emitsExactly_of_error {e : Fault} (hpos : 0 < n) (hn : n < 2 ^ 31)
    (herr : s.writeBa ba n junk = .error e) : ¬ s.EmitsExactly ba f n junk := by
  rintro ⟨wire, ba', s', hrun, -⟩
  rw [writeFixedSizeBa, toInt_of_lt hn, writeFixedSizeBaFrom, if_pos (by omega), herr] at hrun
  cases hrun

/-- How a call goes on after its first write. -/
theorem writeFixedSizeBa_next {k : ℕ} {ba' : ByteArrayModel.ByteArray} {s' : Stream}
    (hpos : 0 < n) (hn : n < 2 ^ 31) (hk : 0 < k)
    (hwrite : s.writeBa ba n junk = .ok ((k : ℤ), ba', s')) :
    s.writeFixedSizeBa ba n junk = writeFixedSizeBaFrom ba' n junk ((n : ℤ) - k) s' := by
  rw [writeFixedSizeBa, toInt_of_lt hn, writeFixedSizeBaFrom, if_pos (by omega), hwrite]
  dsimp only
  rw [if_neg (by omega)]

/-- At the start of a node the view of two bytes has one buffer. -/
theorem writeBa_two_at_node (h : Coherent B ba) (hc : s.connected = true) (hB : 2 ≤ B)
    (hstart : ba.position % B = 0) (hread : ba.position < ba.size) :
    s.writeBa ba 2 junk = .error .outOfBounds := by
  have hcap := h.size_le
  obtain ⟨vs, hvs, -, -, hlen⟩ := h.buffersLoop (p := ba.position)
    (show 0 < min 2 (ba.size - ba.position) by omega) (by omega) (by omega)
  rw [if_pos (by omega)] at hlen
  exact writeBa_short junk h hc hread (by decide) hvs (by omega)

theorem head?_eq_some_iff_headD {ks : List ℕ} {a d : ℕ} (hd : d ≠ a) :
    ks.head? = some a ↔ ks.headD d = a := by
  cases ks with
  | nil => simp [hd]
  | cons k ks => simp

/-- One byte is one buffer of one byte. -/
theorem emitsExactly_one (h : Refines B ba f) (hc : s.connected = true)
    (hacc : ∀ k ∈ s.accepts, 0 < k) (hread : ba.position + 1 ≤ ba.size) :
    s.EmitsExactly ba f 1 junk := by
  have hco := h.coherent
  have hmod := Nat.mod_lt ba.position hco.base_pos
  have hmin : min 1 (ba.size - ba.position) = 1 := by omega
  obtain ⟨vs, hvs, hruns, htotal, hlen⟩ := hco.buffersLoop Nat.one_pos hco.base_pos
    (hread.trans hco.size_le)
  rw [viewTotal, if_pos (by omega)] at htotal
  rw [if_pos (by omega)] at hlen
  obtain ⟨wire, ba', hwire, hwlen, hwrite, hr⟩ := writeBa_view junk h hc hacc (by omega)
    Nat.one_pos (by rw [hmin]; exact hvs) hlen hruns (by omega)
  have htake : wire.take (s.accepts.headD (total vs)) = wire := by
    have := headD_pos hacc (n := total vs) (by omega)
    exact List.take_of_length_le (by omega)
  rw [htake, hwlen, htotal] at hwrite hr
  refine ⟨wire, ba', { s with accepts := s.accepts.tail, sent := s.sent ++ wire }, ?_, rfl,
    by omega, fun i b hi hb => ?_, hr.position⟩
  · rw [writeFixedSizeBa_next Nat.one_pos (by decide) Nat.one_pos hwrite,
      writeFixedSizeBaFrom_done (by decide), toInt_of_lt (by decide)]
  · rw [hwire]
    exact wire_getElem? h (by omega) hb

/-- Two bytes across a boundary are two buffers of three bytes in all. Three of them go out
unless the socket stops after two; if it stops after one, the next view has one buffer. -/
theorem emitsExactly_two (h : Refines B ba f) (hc : s.connected = true)
    (hacc : ∀ k ∈ s.accepts, 0 < k) (hread : ba.position + 2 ≤ ba.size) (hB : 2 ≤ B)
    (hedge : ba.position % B = B - 1) :
    s.EmitsExactly ba f 2 junk ↔ s.accepts.head? = some 2 := by
  have hco := h.coherent
  have hmin : min 2 (ba.size - ba.position) = 2 := by omega
  obtain ⟨vs, hvs, hruns, htotal, hlen⟩ := hco.buffersLoop (by decide : 0 < 2) hB
    (hread.trans hco.size_le)
  rw [viewTotal, if_neg (by omega)] at htotal
  rw [if_neg (by omega)] at hlen
  obtain ⟨wire, ba', hwire, hwlen, hwrite, hr⟩ := writeBa_view junk h hc hacc (by omega)
    (by decide) (by rw [hmin]; exact hvs) hlen hruns (by omega)
  have hthree : total vs = 3 := by omega
  rw [hthree] at hwrite hr hwlen
  have hone := headD_pos hacc (n := 3) (by decide)
  have hlength : (wire.take (s.accepts.headD 3)).length = min (s.accepts.headD 3) 3 := by
    rw [List.length_take, hwlen]
  have hnext := writeFixedSizeBa_next (by decide) (by decide) (by omega) hwrite
  rw [head?_eq_some_iff_headD (by decide : 3 ≠ 2)]
  constructor
  · rintro ⟨wire', ba'', s', hrun, hsent, hwlen', -, -⟩
    by_contra hne
    rcases Nat.lt_or_gt_of_ne hne with hless | hmore
    · -- one byte went out, and the rest of the array begins with a node
      have hp : (wire.take (s.accepts.headD 3)).length = 1 := by omega
      rw [hnext, hp] at hrun
      rw [hp] at hr
      have hpos' : ba'.position = ba.position + 1 := hr.position
      have hsize' : ba'.size = max ba.size (ba.position + 1) := by
        rw [hr.size, h.size]
        rfl
      have hzero : ba'.position % B = 0 := by
        rw [hpos', Nat.add_mod, hedge, Nat.mod_eq_of_lt (a := 1) (by omega),
          Nat.sub_add_cancel (by omega), Nat.mod_self]
      have herr : writeBa { s with
          accepts := s.accepts.tail, sent := s.sent ++ wire.take (s.accepts.headD 3) } ba' 2 junk =
          .error .outOfBounds :=
        writeBa_two_at_node hr.coherent hc hB hzero (by omega)
      rw [writeFixedSizeBaFrom, if_pos (by decide), herr] at hrun
      cases hrun
    · have hp : (wire.take (s.accepts.headD 3)).length = 3 := by omega
      rw [hnext, hp, writeFixedSizeBaFrom_done (by decide)] at hrun
      simp only [Except.ok.injEq, Prod.mk.injEq] at hrun
      have hl := congrArg List.length hsent
      rw [← hrun.2.2] at hl
      simp only [List.length_append, hp] at hl
      omega
  · intro htwo
    rw [htwo] at hnext hlength hr
    refine ⟨wire.take 2, ba', { s with accepts := s.accepts.tail, sent := s.sent ++ wire.take 2 },
      ?_, rfl, by omega, fun i b hi hb => ?_, ?_⟩
    · rw [hnext, hlength, writeFixedSizeBaFrom_done (by decide), toInt_of_lt (by decide)]
    · rw [List.getElem?_take_of_lt hi, hwire]
      exact wire_getElem? h (by omega) hb
    · rw [hr.position, hlength]
      rfl

/-- Every other length faults: the view runs off the chain or has too few buffers. -/
theorem emitsExactly_iff (h : Refines B ba f) (hc : s.connected = true)
    (hacc : ∀ k ∈ s.accepts, 0 < k) (hn : n < 2 ^ 31) (hread : ba.position + n ≤ ba.size) :
    s.EmitsExactly ba f n junk ↔ n ≤ 1 ∨
      n = 2 ∧ 2 ≤ B ∧ ba.position % B = B - 1 ∧ s.accepts.head? = some 2 := by
  have hco := h.coherent
  have hmod := Nat.mod_lt ba.position hco.base_pos
  rcases Nat.eq_zero_or_pos n with rfl | hpos
  · refine ⟨fun _ => Or.inl (by decide), fun _ => ⟨[], ba, s, ?_, by simp, rfl, by simp, rfl⟩⟩
    rw [writeFixedSizeBa, toInt_of_lt hn, writeFixedSizeBaFrom_done (by simp), toInt_of_lt hn]
  have hmin : min n (ba.size - ba.position) = n := by omega
  by_cases hone : n = 1
  · subst hone
    exact iff_of_true (emitsExactly_one h hc hacc hread) (Or.inl le_rfl)
  rw [or_iff_right (by omega)]
  by_cases hB : n ≤ B
  · by_cases htwo : n = 2 ∧ ba.position % B = B - 1
    · obtain ⟨rfl, hedge⟩ := htwo
      rw [emitsExactly_two h hc hacc hread hB hedge]
      simp [hB, hedge]
    · obtain ⟨vs, hvs, -, -, hlen⟩ := hco.buffersLoop hpos hB (hread.trans hco.size_le)
      have hshort : vs.length < n := by
        rw [hlen]
        split_ifs <;> omega
      have herr := writeBa_short junk hco hc (by omega) hpos (by rw [hmin]; exact hvs)
        hshort
      refine iff_of_false (not_emitsExactly_of_error hpos hn herr) ?_
      rintro ⟨rfl, -, hedge, -⟩
      exact htwo ⟨rfl, hedge⟩
  · have herr : s.writeBa ba n junk = .error (.byteArray .nullDeref) := by
      rw [writeBa, if_pos hc, getReadBuffers_eq hco (by omega) hpos, hmin,
        buffersLoop_long (hco.uniform.drop _) (by omega)]
    refine iff_of_false (not_emitsExactly_of_error hpos hn herr) ?_
    rintro ⟨rfl, hB', -⟩
    exact hB hB'

end Emits

/-- When a write of a fixed size is exact. For every schedule of positive portions,
`writeFixedSize(buf, n)` puts every buffer of `n` bytes on the wire once if and only if the
first write takes all of it. `writeFixedSize(ba, n)` does so with the next `n` bytes of an array
that has as many if and only if `n` is at most one, or the two bytes lie in two nodes of more
than one byte and the first write takes exactly two. -/
theorem writeFixedSize_exact_iff {B n : ℕ} {ba : ByteArrayModel.ByteArray} {f : Flat}
    (h : Refines B ba f) (hc : s.connected = true) (hacc : ∀ k ∈ s.accepts, 0 < k)
    (hn : n < 2 ^ 31) (hread : ba.position + n ≤ ba.size) (junk : UInt8) :
    (s.WritesExactly n ↔ n ≤ s.accepts.headD n) ∧
      (s.EmitsExactly ba f n junk ↔ n ≤ 1 ∨
        n = 2 ∧ 2 ≤ B ∧ ba.position % B = B - 1 ∧ s.accepts.head? = some 2) :=
  ⟨writesExactly_iff hc hacc hn, emitsExactly_iff h hc hacc hn hread⟩

/-- An array of three bytes in nodes of `B`, at position `p`. -/
theorem exists_three_bytes {B p : ℕ} (hB : 1 ≤ B) (hp : p ≤ 3) :
    ∃ ba f, Refines B ba f ∧ ba.position = p ∧ ba.size = 3 := by
  obtain ⟨ba, -, hr⟩ := write_refines (new_refines hB) [1, 2, 3]
  have hsize : ba.size = 3 := by simp [hr.size, Flat.write, Flat.empty]
  obtain ⟨ba', -, hr'⟩ := setPosition_refines hr (p := p) (by have := hr.coherent.size_le; omega)
  refine ⟨ba', _, hr', hr'.position, ?_⟩
  rw [hr'.size]
  simp [Flat.setPosition, Flat.write, Flat.empty, hp]

/-- Two bytes go out whole, from a buffer and across the nodes of a byte array. -/
theorem writeFixedSize_exact_iff_two_bytes :
    WritesExactly { incoming := [], accepts := [2] } 2 ∧
      ∃ ba f, Refines 2 ba f ∧ EmitsExactly { incoming := [], accepts := [2] } ba f 2 0 := by
  obtain ⟨ba, f, hr, hpos, hsize⟩ := exists_three_bytes (B := 2) (p := 1) (by decide) (by decide)
  have h := writeFixedSize_exact_iff (s := { incoming := [], accepts := [2] }) hr rfl (by decide)
    (n := 2) (by decide) (by omega) 0
  refine ⟨h.1.mpr (by decide), ba, f, hr, h.2.mpr (Or.inr ⟨rfl, le_rfl, ?_, rfl⟩)⟩
  rw [hpos]

/-- A first write of one byte makes the buffer go out from its start again; and two bytes in
one node of a byte array make `sendmsg` read a second buffer that is not there. -/
theorem writeFixedSize_two_bytes_fail :
    ¬ WritesExactly { incoming := [], accepts := [1] } 2 ∧
      ∃ ba f, Refines 4 ba f ∧ ba.position + 2 ≤ ba.size ∧
        ¬ EmitsExactly { incoming := [], accepts := [2] } ba f 2 0 := by
  constructor
  · rw [writesExactly_iff rfl (by decide) (by decide)]
    decide
  · obtain ⟨ba, f, hr, hpos, hsize⟩ := exists_three_bytes (B := 4) (p := 0) (by decide)
      (by decide)
    refine ⟨ba, f, hr, by omega, ?_⟩
    rw [emitsExactly_iff hr rfl (by decide) (by decide) (by omega), hpos]
    decide

end Stream

end Xzmjx.StreamModel
