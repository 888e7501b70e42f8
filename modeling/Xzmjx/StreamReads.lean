import Xzmjx.StreamModel

/-!
# Reading a fixed number of bytes

`readFixedSize` into a buffer gives every read the start of the buffer, so it is
right exactly when the first read delivers everything. `readFixedSize` into a
byte array asks for the whole length every time, so it also reads on past the
length unless a segment happens to end there.
-/
namespace Xzmjx.StreamModel
open BlockList ByteArrayModel

theorem toInt_of_lt {n : ℕ} (h : n < 2 ^ 31) : toInt n = n := by
  unfold toInt
  rw [Int.bmod_eq_of_le] <;> omega

theorem storeAt_eq_ok {mem mem' got : Bytes} {off : ℕ} (h : storeAt mem off got = .ok mem') :
    off + got.length ≤ mem.length ∧ mem' = overlay mem off got := by
  unfold storeAt at h
  split_ifs at h with hfit
  exact ⟨hfit, (Except.ok.inj h).symm⟩

/-- What a read leaves of the segments, together with what it took. -/
theorem take_append_rest (x : Bytes) (xs : List Bytes) (n : ℕ) :
    x.take n ++ (if x.drop n = [] then xs else x.drop n :: xs).flatten = x ++ xs.flatten := by
  conv_rhs => rw [← List.take_append_drop n x, List.append_assoc]
  split_ifs with hrest
  · rw [hrest, List.nil_append]
  · rw [List.flatten_cons]

namespace Stream

variable {s : Stream}

theorem recv_cons {x : Bytes} {xs : List Bytes} (hs : s.incoming = x :: xs) (hx : x ≠ [])
    (length : ℕ) :
    s.recv length = (((x.take length).length : ℤ), x.take length,
      { s with incoming := if x.drop length = [] then xs else x.drop length :: xs }) := by
  obtain ⟨b, bs, rfl⟩ := List.exists_cons_of_ne_nil hx
  simp only [recv, hs]

theorem read_cons {x : Bytes} {xs : List Bytes} (hc : s.connected = true)
    (hs : s.incoming = x :: xs) (hx : x ≠ []) (length : ℕ) :
    s.read length = (((x.take length).length : ℤ), x.take length,
      { s with incoming := if x.drop length = [] then xs else x.drop length :: xs }) := by
  rw [read, if_pos hc, recv_cons hs hx]

/-- What a read does: it takes bytes off the front of the stream, and a positive result is
their number. -/
structure Delivered (s : Stream) (length : ℕ) (rt : ℤ) (got : Bytes) (s' : Stream) : Prop where
  result : 0 < rt → rt = got.length
  length_le : got.length ≤ length
  taken : s.incoming.flatten = got ++ s'.incoming.flatten
  sent : s'.sent = s.sent
  accepts : s'.accepts = s.accepts
  connected : s'.connected = s.connected

theorem delivered_of_recv {length : ℕ} {rt : ℤ} {got : Bytes} {s' : Stream}
    (h : s.recv length = (rt, got, s')) : Delivered s length rt got s' := by
  unfold recv at h
  split at h
  · cases h
    exact ⟨by simp, Nat.zero_le _, rfl, rfl, rfl, rfl⟩
  · next xs hs =>
      cases h
      exact ⟨by simp, Nat.zero_le _, by simp [hs], rfl, rfl, rfl⟩
  · next x xs _ hs =>
      cases h
      refine ⟨fun _ => rfl, by rw [List.length_take]; omega, ?_, rfl, rfl, rfl⟩
      rw [hs, List.flatten_cons]
      exact (take_append_rest x xs length).symm

theorem delivered_of_read {length : ℕ} {rt : ℤ} {got : Bytes} {s' : Stream}
    (h : s.read length = (rt, got, s')) : Delivered s length rt got s' := by
  unfold read at h
  split_ifs at h
  · exact delivered_of_recv h
  · cases h
    exact ⟨by simp, Nat.zero_le _, rfl, rfl, rfl, rfl⟩

/-! ### Into a buffer -/

theorem readFixedSizeFrom_done (mem : Bytes) (off length : ℕ) {left : ℤ} (hleft : left ≤ 0) :
    readFixedSizeFrom mem off length left s = .ok (toInt length, mem, s) := by
  rw [readFixedSizeFrom, if_neg (by omega)]

/-- The first read delivers everything. -/
theorem readFixedSize_whole {x : Bytes} {xs : List Bytes} {mem : Bytes} {off n : ℕ}
    (hc : s.connected = true) (hs : s.incoming = x :: xs) (hpos : 0 < n) (hn : n < 2 ^ 31)
    (hx : n ≤ x.length) (hmem : off + n ≤ mem.length) :
    s.readFixedSize mem off n = .ok (n, overlay mem off (x.take n),
      { s with incoming := if x.drop n = [] then xs else x.drop n :: xs }) := by
  have hne : x ≠ [] := List.ne_nil_of_length_pos (by omega)
  have hlen : (x.take n).length = n := by rw [List.length_take]; omega
  have hpos' : (0 : ℤ) < n := by exact_mod_cast hpos
  rw [readFixedSize, readFixedSizeFrom, toInt_of_lt hn, if_pos hpos', Int.toNat_natCast,
    read_cons hc hs hne]
  simp only [hlen, storeAt, if_neg (Int.not_le.mpr hpos'), if_pos hmem]
  rw [readFixedSizeFrom_done _ _ _ (by omega), toInt_of_lt hn]

/-- The segments of a stream all of whose bytes have arrived. -/
def buffered (bytes : Bytes) : List Bytes := if bytes = [] then [] else [bytes]

@[simp] theorem flatten_buffered (bytes : Bytes) : (buffered bytes).flatten = bytes := by
  unfold buffered
  split_ifs with h
  · rw [h, List.flatten_nil]
  · simp

theorem buffered_of_ne_nil {bytes : Bytes} (h : bytes ≠ []) : buffered bytes = [bytes] := if_neg h

theorem readFixedSize_buffered {part tail : Bytes} (mem : Bytes) (off : ℕ)
    (hc : s.connected = true) (hs : s.incoming = buffered (part ++ tail)) (hpart : part ≠ [])
    (hn : part.length < 2 ^ 31) (hmem : off + part.length ≤ mem.length) :
    s.readFixedSize mem off part.length =
      .ok ((part.length : ℤ), overlay mem off part, { s with incoming := buffered tail }) := by
  rw [buffered_of_ne_nil (by simp [hpart])] at hs
  rw [readFixedSize_whole hc hs (List.length_pos_iff.mpr hpart) hn (by simp) hmem,
    List.take_left, List.drop_left]
  rfl

/-- The loop stores nothing behind the bytes it still needs. -/
theorem readFixedSizeFrom_frame {mem mem' : Bytes} {off length k : ℕ} {left rt : ℤ} {s' : Stream}
    (h : readFixedSizeFrom mem off length left s = .ok (rt, mem', s'))
    (hk : off + left.toNat ≤ k) : mem'[k]? = mem[k]? := by
  fun_induction readFixedSizeFrom mem off length left s with
  | case1 mem left s hleft r got t hread hr =>
      cases h
      rfl
  | case2 mem left s hleft r got t hread hr e hstore => cases h
  | case3 mem left s hleft r got t hread hr stored hstore ih =>
      have hgot := delivered_of_read hread
      have hle := hgot.length_le
      have hresult := hgot.result (by omega)
      obtain ⟨hfit, rfl⟩ := storeAt_eq_ok hstore
      rw [ih h (by omega), getElem?_overlay hfit, if_neg (by omega)]
  | case4 mem left s hleft =>
      simp only [Except.ok.injEq, Prod.mk.injEq] at h
      rw [h.2.1]

/-- If the first read falls short, nothing is ever stored at the end of the buffer. -/
theorem readFixedSize_last {x : Bytes} {xs : List Bytes} {mem mem' : Bytes} {off n : ℕ} {rt : ℤ}
    {s' : Stream} (hc : s.connected = true) (hs : s.incoming = x :: xs) (hx : x ≠ [])
    (hn : n < 2 ^ 31) (hshort : x.length < n)
    (h : s.readFixedSize mem off n = .ok (rt, mem', s')) :
    mem'[off + (n - 1)]? = mem[off + (n - 1)]? := by
  have hpos := List.length_pos_iff.mpr hx
  have hleft : (0 : ℤ) < n := by omega
  have hgot : (0 : ℤ) < x.length := by omega
  rw [readFixedSize, readFixedSizeFrom, toInt_of_lt hn, if_pos hleft, Int.toNat_natCast,
    read_cons hc hs hx, List.take_of_length_le hshort.le] at h
  simp only [if_neg (Int.not_le.mpr hgot)] at h
  cases hstore : storeAt mem off x with
  | error e => simp [hstore] at h
  | ok stored =>
      rw [hstore] at h
      obtain ⟨hfit, rfl⟩ := storeAt_eq_ok hstore
      rw [readFixedSizeFrom_frame h (by omega), getElem?_overlay hfit, if_neg (by omega)]

/-- What a call does, whatever the reads return: it takes bytes off the front of the stream,
all that were asked for if the result is positive, and the object keeps its size. -/
structure Filled (s : Stream) (mem : Bytes) (length : ℕ) (left rt : ℤ) (mem' : Bytes)
    (s' : Stream) : Prop where
  result : rt ≤ 0 ∨ rt = toInt length
  taken : ∃ g, s.incoming.flatten = g ++ s'.incoming.flatten ∧ (0 < rt → g.length = left.toNat)
  mem_length : mem'.length = mem.length
  sent : s'.sent = s.sent
  accepts : s'.accepts = s.accepts
  connected : s'.connected = s.connected

theorem filled_of_readFixedSizeFrom {mem mem' : Bytes} {off length : ℕ} {left rt : ℤ}
    {s' : Stream} (h : readFixedSizeFrom mem off length left s = .ok (rt, mem', s')) :
    Filled s mem length left rt mem' s' := by
  fun_induction readFixedSizeFrom mem off length left s with
  | case1 mem left s hleft r got t hread hr =>
      cases h
      have hgot := delivered_of_read hread
      exact ⟨Or.inl hr, ⟨got, hgot.taken, fun hc => absurd hc (by omega)⟩, rfl, hgot.sent,
        hgot.accepts, hgot.connected⟩
  | case2 mem left s hleft r got t hread hr e hstore => cases h
  | case3 mem left s hleft r got t hread hr stored hstore ih =>
      have hgot := delivered_of_read hread
      have hle := hgot.length_le
      have hresult := hgot.result (by omega)
      obtain ⟨hfit, rfl⟩ := storeAt_eq_ok hstore
      obtain ⟨hr', ⟨g, hg, hlen⟩, hmem, hsent, hacc, hcon⟩ := ih h
      refine ⟨hr', ⟨got ++ g, ?_, fun hpos => ?_⟩, hmem.trans (overlay_length hfit),
        hsent.trans hgot.sent, hacc.trans hgot.accepts, hcon.trans hgot.connected⟩
      · rw [hgot.taken, hg, List.append_assoc]
      · have := hlen hpos
        rw [List.length_append]
        omega
  | case4 mem left s hleft =>
      simp only [Except.ok.injEq, Prod.mk.injEq] at h
      obtain ⟨hr, rfl, rfl⟩ := h
      exact ⟨Or.inr hr.symm, ⟨[], rfl, fun _ => by simp; omega⟩, rfl, rfl, rfl, rfl⟩

/-- A call whose destination has room for the bytes it asks for does not fault. -/
theorem exists_readFixedSizeFrom {mem : Bytes} {off length : ℕ} {left : ℤ}
    (hroom : off + left.toNat ≤ mem.length) :
    ∃ rt mem' s', readFixedSizeFrom mem off length left s = .ok (rt, mem', s') := by
  fun_induction readFixedSizeFrom mem off length left s with
  | case1 mem left s hleft r got t hread hr => exact ⟨_, _, _, rfl⟩
  | case2 mem left s hleft r got t hread hr e hstore =>
      have hle := (delivered_of_read hread).length_le
      simp only [storeAt] at hstore
      split_ifs at hstore
      omega
  | case3 mem left s hleft r got t hread hr stored hstore ih =>
      obtain ⟨hfit, rfl⟩ := storeAt_eq_ok hstore
      exact ih (by rw [overlay_length hfit]; omega)
  | case4 mem left s hleft => exact ⟨_, _, _, rfl⟩

/-- Wherever the buffer lies, the next `n` bytes of the stream are in it afterwards, the
call returns `n`, and the stream is left right behind them. -/
def ReadsExactly (s : Stream) (n : ℕ) : Prop :=
  ∀ mem off, off + n ≤ mem.length → ∃ s', s.readFixedSize mem off n =
      .ok ((n : ℤ), overlay mem off (s.incoming.flatten.take n), s') ∧
    s'.incoming.flatten = s.incoming.flatten.drop n

/-- The last byte of the buffer is only written by a read that delivers everything. -/
theorem readsExactly_iff (hc : s.connected = true) (hsegs : ∀ x ∈ s.incoming, x ≠ []) {n : ℕ}
    (hn : n < 2 ^ 31) (hbytes : n ≤ s.incoming.flatten.length) :
    s.ReadsExactly n ↔ n ≤ (s.incoming.headD []).length := by
  rcases Nat.eq_zero_or_pos n with rfl | hpos
  · refine ⟨fun _ => Nat.zero_le _, fun _ mem off hmem => ⟨s, ?_, by simp⟩⟩
    rw [readFixedSize, toInt_of_lt hn, readFixedSizeFrom_done _ _ _ (by simp), toInt_of_lt hn]
    simp
  obtain ⟨x, xs, hs⟩ : ∃ x xs, s.incoming = x :: xs := by
    refine List.exists_cons_of_ne_nil fun hnil => ?_
    rw [hnil] at hbytes
    simp at hbytes
    omega
  have hx : x ≠ [] := hsegs x (by simp [hs])
  rw [hs, List.headD_cons]
  constructor
  · intro h
    by_contra hshort
    obtain ⟨b, hb⟩ : ∃ b, s.incoming.flatten[n - 1]? = some b :=
      ⟨_, List.getElem?_eq_getElem (by omega)⟩
    obtain ⟨c, hcb⟩ : ∃ c : UInt8, c ≠ b := by
      by_cases hb0 : b = 0
      · exact ⟨1, by rw [hb0]; decide⟩
      · exact ⟨0, Ne.symm hb0⟩
    obtain ⟨s', hread, -⟩ := h (List.replicate n c) 0 (by simp)
    have hkept := readFixedSize_last hc hs hx hn (by omega) hread
    have hlen : (s.incoming.flatten.take n).length = n := by rw [List.length_take]; omega
    rw [getElem?_overlay (by rw [hlen]; simp), if_pos (by omega), Nat.zero_add, Nat.sub_zero,
      List.getElem?_take_of_lt (by omega), hb, List.getElem?_replicate_of_lt (by omega)] at hkept
    exact hcb (Option.some.inj hkept).symm
  · intro hle mem off hmem
    have htake : s.incoming.flatten.take n = x.take n := by
      rw [hs, List.flatten_cons, List.take_append_of_le_length hle]
    refine ⟨_, by rw [htake]; exact readFixedSize_whole hc hs hpos hn hle hmem, ?_⟩
    rw [hs, List.flatten_cons, ← take_append_rest x xs n,
      List.drop_left' (by rw [List.length_take]; omega)]

/-! ### Into a byte array -/

/-- One read appends the part of the first segment that fits the view. -/
theorem readBa_refines {B n : ℕ} {ba : ByteArrayModel.ByteArray} {f : Flat} {x : Bytes}
    {xs : List Bytes} (h : Refines B ba f) (hc : s.connected = true) (hs : s.incoming = x :: xs)
    (hx : x ≠ []) (hpos : 0 < n) (hB : n ≤ B) :
    ∃ ba', s.readBa ba n = .ok (((x.take (viewTotal B ba.position n)).length : ℤ), ba',
        { s with incoming := if x.drop (viewTotal B ba.position n) = [] then xs
                             else x.drop (viewTotal B ba.position n) :: xs }) ∧
      Refines B ba' (f.write (x.take (viewTotal B ba.position n))) := by
  obtain ⟨vs, ga, hbuf, hg, hruns, htotal⟩ := getWriteBuffers_grown h.coherent hpos hB
  have hview := le_viewTotal B ba.position n
  set got := x.take (viewTotal B ba.position n) with hgot
  have hle : got.length ≤ total vs := by
    rw [htotal, hgot, List.length_take]
    omega
  have hrt : (0 : ℤ) < got.length := by
    have := List.length_pos_iff.mpr hx
    rw [hgot, List.length_take]
    omega
  obtain ⟨ba', hset, hr⟩ := scatter_refines h hg hruns hle
  refine ⟨ba', ?_, hr⟩
  rw [readBa, if_pos hc, hbuf]
  dsimp only
  rw [htotal, recv_cons hs hx]
  dsimp only
  rw [if_pos hrt, Int.toNat_natCast, hset]

theorem readBa_long {B n : ℕ} {ba : ByteArrayModel.ByteArray} (h : Coherent B ba)
    (hc : s.connected = true) (hB : B < n) :
    s.readBa ba n = .error (.byteArray .nullDeref) := by
  rw [readBa, if_pos hc, getWriteBuffers_long h hB]

theorem readFixedSizeBaFrom_done {ba : ByteArrayModel.ByteArray} {length : ℕ} {left : ℤ}
    (hleft : left ≤ 0) : readFixedSizeBaFrom ba length left s = .ok (toInt length, ba, s) := by
  rw [readFixedSizeBaFrom, if_neg (by omega)]

/-- Where the loop stops after a positive number of bytes `left` was still needed: behind a
whole number of segments, or in the first one if the view was no longer than `left`. -/
def StopsAt (segs : List Bytes) (B pos n left : ℕ) : Prop :=
  (∃ k, (segs.take k).flatten.length = left) ∨
    (left = n ∧ pos % B + n ≤ B ∧ n ≤ (segs.headD []).length)

theorem exists_take_cons_iff {x : Bytes} {xs : List Bytes} {left : ℕ} (hpos : 0 < left)
    (hx : x.length ≤ left) :
    (∃ k, ((x :: xs).take k).flatten.length = left) ↔
      ∃ k, (xs.take k).flatten.length = left - x.length := by
  constructor
  · rintro ⟨k, hk⟩
    cases k with
    | zero => simp at hk; omega
    | succ k =>
        simp only [List.take_succ_cons, List.flatten_cons, List.length_append] at hk
        exact ⟨k, by omega⟩
  · rintro ⟨k, hk⟩
    refine ⟨k + 1, ?_⟩
    simp only [List.take_succ_cons, List.flatten_cons, List.length_append]
    omega

/-- After the first read only whole segments count. -/
theorem stopsAt_of_lt {segs : List Bytes} {B pos n left : ℕ} (h : left < n) :
    StopsAt segs B pos n left ↔ ∃ k, (segs.take k).flatten.length = left := by
  unfold StopsAt
  exact or_iff_left (by omega)

/-- A first segment with fewer bytes than needed is taken whole. -/
theorem stopsAt_cons_short {x : Bytes} {xs : List Bytes} {B pos pos' n left : ℕ}
    (hxpos : 0 < x.length) (hshort : x.length < left) (hleft : left ≤ n) :
    StopsAt (x :: xs) B pos n left ↔ StopsAt xs B pos' n (left - x.length) := by
  have hrest : StopsAt xs B pos' n (left - x.length) ↔ _ := stopsAt_of_lt (by omega)
  rw [hrest, ← exists_take_cons_iff (by omega) hshort.le]
  unfold StopsAt
  refine or_iff_left ?_
  rintro ⟨hn, -, hle⟩
  rw [List.headD_cons] at hle
  omega

/-- In a first segment with enough bytes the view decides. -/
theorem stopsAt_cons_long {x : Bytes} {xs : List Bytes} {B pos n left : ℕ} (hB : 0 < B)
    (hpos : 0 < left) (hleft : left ≤ n) (hlong : left ≤ x.length) :
    StopsAt (x :: xs) B pos n left ↔ min (viewTotal B pos n) x.length = left := by
  have hview := le_viewTotal B pos n
  have hmod := Nat.mod_lt pos hB
  constructor
  · rintro (⟨k, hk⟩ | ⟨hn, hfit, -⟩)
    · cases k with
      | zero => simp at hk; omega
      | succ k =>
          simp only [List.take_succ_cons, List.flatten_cons, List.length_append] at hk
          omega
    · rw [viewTotal, if_pos hfit]
      omega
  · intro hmin
    by_cases hx : x.length ≤ viewTotal B pos n
    · exact Or.inl ⟨1, by simp; omega⟩
    · refine Or.inr ⟨by omega, ?_, by rw [List.headD_cons]; omega⟩
      by_contra hcross
      rw [viewTotal, if_neg hcross] at hmin hx
      omega

/-- The loop appends some bytes `g` of the stream, at least those still needed, and exactly
those if and only if it can stop there. -/
theorem readFixedSizeBaFrom_spec {B n left : ℕ} {ba : ByteArrayModel.ByteArray} {f : Flat}
    (h : Refines B ba f) (hc : s.connected = true) (hsegs : ∀ x ∈ s.incoming, x ≠ [])
    (hpos : 0 < left) (hleft : left ≤ n) (hB : n ≤ B)
    (hbytes : left ≤ s.incoming.flatten.length) :
    ∃ g ba' s', readFixedSizeBaFrom ba n left s = .ok (toInt n, ba', s') ∧
      Refines B ba' (f.write g) ∧ s.incoming.flatten = g ++ s'.incoming.flatten ∧
      (g.length = left ↔ StopsAt s.incoming B ba.position n left) := by
  obtain ⟨segs, hs⟩ : ∃ segs, s.incoming = segs := ⟨_, rfl⟩
  induction segs generalizing s left ba f with
  | nil =>
      rw [hs] at hbytes
      simp at hbytes
      omega
  | cons x xs ih =>
      have hx : x ≠ [] := hsegs x (by simp [hs])
      have hxpos := List.length_pos_iff.mpr hx
      have hview := le_viewTotal B ba.position n
      obtain ⟨ba₁, hread, hr₁⟩ := readBa_refines h hc hs hx (by omega) hB
      set T := viewTotal B ba.position n with hT
      have hrt : (0 : ℤ) < (x.take T).length := by
        rw [List.length_take]
        omega
      rw [readFixedSizeBaFrom, if_pos (by omega), hread]
      dsimp only
      rw [if_neg (by omega), hs]
      by_cases hlong : left ≤ x.length
      · -- the segment is long enough: this is the last read
        refine ⟨x.take T, ba₁, _, readFixedSizeBaFrom_done (by rw [List.length_take]; omega), hr₁,
          (take_append_rest x xs T).symm, ?_⟩
        rw [List.length_take, stopsAt_cons_long h.coherent.base_pos hpos hleft hlong]
      · -- the whole segment is taken and more is needed
        have htake : x.take T = x := List.take_of_length_le (by omega)
        have hdrop : x.drop T = [] := List.drop_eq_nil_of_le (by omega)
        rw [htake] at hr₁ ⊢
        rw [if_pos hdrop]
        have hcast : ((left : ℤ) - (x.length : ℤ)) = ((left - x.length : ℕ) : ℤ) := by omega
        rw [hs, List.flatten_cons, List.length_append] at hbytes
        have hneed : 0 < left - x.length := by omega
        obtain ⟨g, ba', s', hloop, hr, hflat, hiff⟩ := ih (s := { s with incoming := xs }) hr₁ hc
          (fun y hy => hsegs y (by simp [hs, hy])) hneed (by omega) (by dsimp only; omega) rfl
        dsimp only at hflat hiff
        rw [Flat.write_write] at hr
        refine ⟨x ++ g, ba', s', hcast ▸ hloop, hr, ?_, ?_⟩
        · rw [List.flatten_cons, List.append_assoc, ← hflat]
        · rw [stopsAt_cons_short hxpos (by omega) hleft, ← hiff, List.length_append]
          omega

/-- The next `n` bytes of the stream are appended, the call returns `n`, and the stream is
left right behind them. -/
def AppendsExactly (s : Stream) (B : ℕ) (ba : ByteArrayModel.ByteArray) (f : Flat) (n : ℕ) :
    Prop :=
  ∃ ba' s', s.readFixedSizeBa ba n = .ok ((n : ℤ), ba', s') ∧
    Refines B ba' (f.write (s.incoming.flatten.take n)) ∧
    s'.incoming.flatten = s.incoming.flatten.drop n

theorem appendsExactly_iff {B n : ℕ} {ba : ByteArrayModel.ByteArray} {f : Flat}
    (h : Refines B ba f) (hc : s.connected = true) (hsegs : ∀ x ∈ s.incoming, x ≠ [])
    (hn : n < 2 ^ 31) (hbytes : n ≤ s.incoming.flatten.length) :
    s.AppendsExactly B ba f n ↔ n = 0 ∨ n ≤ B ∧ StopsAt s.incoming B ba.position n n := by
  rcases Nat.eq_zero_or_pos n with rfl | hpos
  · refine ⟨fun _ => Or.inl rfl, fun _ => ⟨ba, s, ?_, ?_, by simp⟩⟩
    · rw [readFixedSizeBa, toInt_of_lt hn, readFixedSizeBaFrom_done (by simp), toInt_of_lt hn]
    · obtain ⟨ba', hwrite, hr⟩ := write_refines h []
      obtain rfl : ba = ba' := by simpa [ByteArray.write] using hwrite
      simpa using hr
  rw [or_iff_right (by omega)]
  by_cases hB : n ≤ B
  · obtain ⟨g, ba', s', hloop, hr, hflat, hiff⟩ :=
      readFixedSizeBaFrom_spec h hc hsegs hpos le_rfl hB hbytes
    have hrun : s.readFixedSizeBa ba n = .ok ((n : ℤ), ba', s') := by
      rw [readFixedSizeBa, toInt_of_lt hn, hloop, toInt_of_lt hn]
    rw [and_iff_right hB, ← hiff]
    constructor
    · rintro ⟨ba'', s'', hrun', -, hrest⟩
      rw [hrun] at hrun'
      simp only [Except.ok.injEq, Prod.mk.injEq] at hrun'
      rw [← hrun'.2.2] at hrest
      have hlen := congrArg List.length hrest
      have hall := congrArg List.length hflat
      rw [List.length_drop] at hlen
      rw [List.length_append] at hall
      omega
    · intro hlen
      refine ⟨ba', s', hrun, ?_, ?_⟩
      · rw [hflat, List.take_left' hlen]
        exact hr
      · rw [hflat, List.drop_left' hlen]
  · have hlong := readBa_long (s := s) h.coherent hc (Nat.lt_of_not_le hB)
    refine ⟨?_, fun hstop => absurd hstop.1 hB⟩
    rintro ⟨ba', s', hrun, -, -⟩
    rw [readFixedSizeBa, toInt_of_lt hn, readFixedSizeBaFrom, if_pos (by omega), hlong] at hrun
    cases hrun

/-- When a read of a fixed size is exact. For every stream of enough bytes and every way
in which its reads come short, `readFixedSize(buf, n)` is exact if and only if the first read
delivers all `n` bytes, and `readFixedSize(ba, n)` if and only if `n` is at most a node and the
reads can stop behind `n` bytes: a segment ends there, or the first read delivers them all and
the node has room for them. -/
theorem readFixedSize_exact_iff {B n : ℕ} {ba : ByteArrayModel.ByteArray} {f : Flat}
    (h : Refines B ba f) (hc : s.connected = true) (hsegs : ∀ x ∈ s.incoming, x ≠ [])
    (hn : n < 2 ^ 31) (hbytes : n ≤ s.incoming.flatten.length) :
    (s.ReadsExactly n ↔ n ≤ (s.incoming.headD []).length) ∧
      (s.AppendsExactly B ba f n ↔ n = 0 ∨ n ≤ B ∧
        ((∃ k, (s.incoming.take k).flatten.length = n) ∨
          ba.position % B + n ≤ B ∧ n ≤ (s.incoming.headD []).length)) := by
  refine ⟨readsExactly_iff hc hsegs hn hbytes, ?_⟩
  rw [appendsExactly_iff h hc hsegs hn hbytes, StopsAt, and_iff_right rfl]

/-- Three bytes in one segment, of which two are read. -/
theorem readFixedSize_exact_iff_one_segment :
    ReadsExactly { incoming := [[1, 2, 3]] } 2 ∧
      AppendsExactly { incoming := [[1, 2, 3]] } 4 (ByteArray.new 4) Flat.empty 2 := by
  have h := readFixedSize_exact_iff (s := { incoming := [[1, 2, 3]] }) (n := 2)
    (new_refines (B := 4) (by decide)) rfl (by decide) (by decide) (by decide)
  exact ⟨h.1.mpr (by decide), h.2.mpr (Or.inr ⟨by decide, Or.inr (by decide)⟩)⟩

/-- The same bytes in two segments: the buffer gets the second byte in the place of the
first, and the byte array gets a third one. -/
theorem readFixedSize_two_segments :
    ¬ ReadsExactly { incoming := [[1], [2, 3]] } 2 ∧
      ¬ AppendsExactly { incoming := [[1], [2, 3]] } 4 (ByteArray.new 4) Flat.empty 2 := by
  constructor
  · rw [readsExactly_iff rfl (by decide) (by decide) (by decide)]
    decide
  · rw [appendsExactly_iff (new_refines (by decide)) rfl (by decide) (by decide) (by decide)]
    rintro (hzero | ⟨-, ⟨k, hk⟩ | hfirst⟩)
    · simp at hzero
    · rcases k with _ | _ | k <;> simp at hk
    · simp at hfirst

end Stream

end Xzmjx.StreamModel
