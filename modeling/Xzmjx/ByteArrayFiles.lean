import Xzmjx.ByteArrayViews

/-!
# Dumping a byte array to a file and loading it

`writeToFile` walks the chain from the cached node, one node a round, and
`readFromFile` writes one block of the base size a round. Both are compared with one
operation on the whole: the unread bytes, and a single write. The stream writes all
it is given, and a read delivers a full block until a short one, which sets `eof`.
-/
namespace Xzmjx.ByteArrayModel
open BlockList StepSystem

/-! ### The two functions -/

/-- The loop of `writeToFile` along the chain ahead of `cur`: what goes to the stream. -/
def dumpLoop (B : ℕ) : List Node → ℕ → ℕ → Except Fault (List Cell)
  | [], _, readSize => if readSize = 0 then .ok [] else .error .nullDeref
  | n :: next, pos, readSize =>
      if readSize = 0 then .ok []
      else
        let diff := pos % B
        let len := if readSize ≤ B - diff then readSize else B - diff
        match dumpLoop B next (pos + len) (readSize - len) with
        | .error e => .error e
        | .ok more => .ok ((n.ptr.drop diff).take len ++ more)

/-- The loop of `readFromFile`, for as many rounds as it may need. The last block is the first
one that is short, and it may be empty. -/
def loadLoop (B : ℕ) : ℕ → ByteArray → List UInt8 → Except Fault ByteArray
  | 0, ba, _ => .ok ba
  | rounds + 1, ba, file =>
      match ba.write (file.take B) with
      | .error e => .error e
      | .ok ba => if file.length < B then .ok ba else loadLoop B rounds ba (file.drop B)

namespace ByteArray

/-- `writeToFile`: the result and the file. `opens` says whether the file could be opened, which
truncates it. -/
def writeToFile (ba : ByteArray) (opens : Bool) (file : List Cell) :
    Except Fault (Bool × List Cell) :=
  if opens then
    match dumpLoop ba.baseSize (ba.cur.elim [] fun c => ba.nodes.drop c) ba.position
        ba.getReadSize with
    | .error e => .error e
    | .ok bytes => .ok (true, bytes)
  else .ok (false, file)

/-- `readFromFile`. -/
def readFromFile (ba : ByteArray) (opens : Bool) (file : List UInt8) :
    Except Fault (Bool × ByteArray) :=
  if opens then
    match loadLoop ba.baseSize (file.length + 1) ba file with
    | .error e => .error e
    | .ok ba => .ok (true, ba)
  else .ok (false, ba)

/-- The bytes from the position to the size. -/
def unread (ba : ByteArray) : List Cell :=
  ((contents ba.nodes).drop ba.position).take (ba.size - ba.position)

end ByteArray

/-- The bytes of a file that the cells were written to; a cell that was never written may have
held anything. -/
def Holds (file : List UInt8) (cells : List Cell) : Prop :=
  List.Forall₂ (fun b c => c = none ∨ c = some b) file cells

/-! ### The dump -/

/-- From inside the first node, or from a boundary, the loop takes the bytes in order. -/
theorem dumpLoop_spec {B : ℕ} (hB : 0 < B) {chain : List Node} {pos readSize : ℕ}
    (hu : Uniform B chain) (hroom : pos % B + readSize ≤ B * chain.length) :
    dumpLoop B chain pos readSize =
      .ok (((contents chain).drop (pos % B)).take readSize) := by
  induction chain generalizing pos readSize with
  | nil =>
      have hzero : readSize = 0 := by
        simp only [List.length_nil, Nat.mul_zero] at hroom
        omega
      simp [dumpLoop, hzero]
  | cons n next ih =>
      obtain ⟨hsize, hnext⟩ := uniform_cons.mp hu
      have hptr : n.ptr.length = B := hsize
      have hmod := Nat.mod_lt pos hB
      have hdrop : (contents (n :: next)).drop (pos % B) =
          n.ptr.drop (pos % B) ++ contents next := by
        rw [contents_cons, List.drop_append_of_le_length (by omega)]
      have hleft : (n.ptr.drop (pos % B)).length = B - pos % B := by rw [List.length_drop, hptr]
      rw [List.length_cons, Nat.mul_succ] at hroom
      unfold dumpLoop
      rw [hdrop]
      dsimp only
      split_ifs with hzero hfit
      · simp [hzero]
      · -- the dump ends in this node, and the next round finds nothing left
        have hend : dumpLoop B next (pos + readSize) (readSize - readSize) = .ok [] := by
          cases next <;> simp [dumpLoop]
        rw [hend, List.take_append_of_le_length (by omega)]
        simp
      · have hstart : (pos + (B - pos % B)) % B = 0 := by
          have hdm := Nat.div_add_mod pos B
          have hsum : pos + (B - pos % B) = B * (pos / B + 1) := by
            rw [Nat.mul_succ]
            omega
          rw [hsum, Nat.mul_mod_right]
        have hall : (n.ptr.drop (pos % B)).take (B - pos % B) =
            (n.ptr.drop (pos % B)).take readSize := by
          rw [List.take_of_length_le (by omega), List.take_of_length_le (by omega)]
        rw [ih hnext (by rw [hstart]; omega), hstart, List.drop_zero, List.take_append, hleft, hall]

theorem Coherent.writeToFile_eq {B : ℕ} {ba : ByteArray} (h : Coherent B ba) (old : List Cell) :
    ba.writeToFile true old = .ok (true, ba.unread) := by
  have hsize : ba.getReadSize = ba.size - ba.position := sizeSub_of_le h.position_le
  have hle := h.size_le
  have hpos := h.position_le_capacity
  have hdump : dumpLoop B (ba.cur.elim [] fun c => ba.nodes.drop c) ba.position
      (ba.size - ba.position) = .ok ba.unread := by
    by_cases hend : ba.position = ba.capacity
    · -- the cursor is null, and there is nothing to dump
      have hzero : ba.size - ba.position = 0 := by omega
      rw [h.cur, if_pos hend, hzero, ByteArray.unread, hzero]
      rfl
    · rw [h.cur, if_neg hend, Option.elim_some, dumpLoop_spec h.base_pos (h.uniform.drop _)
        (h.room_ahead (by omega) (by omega)), h.contents_drop_node]
      rfl
  rw [ByteArray.writeToFile, if_pos rfl, h.base, hsize, hdump]

theorem Coherent.length_unread {B : ℕ} {ba : ByteArray} (h : Coherent B ba) :
    ba.unread.length = ba.size - ba.position := by
  have hle := h.size_le
  rw [ByteArray.unread, List.length_take, List.length_drop, contents_length h.uniform,
    ← h.capacity]
  omega

/-! ### Writes in parts -/

/-- Chains of nodes of one size are equal if their bytes are. -/
theorem uniform_ext {B : ℕ} (hB : 0 < B) {xs ys : List Node} (hx : Uniform B xs)
    (hy : Uniform B ys) (h : contents xs = contents ys) : xs = ys := by
  induction xs generalizing ys with
  | nil =>
      have hlen := congrArg List.length h
      rw [contents_length hx, contents_length hy, List.length_nil, Nat.mul_zero] at hlen
      have hnil : ys.length = 0 := by
        by_contra hne
        exact absurd hlen.symm (Nat.mul_pos hB (Nat.pos_of_ne_zero hne)).ne'
      exact (List.length_eq_zero_iff.mp hnil).symm
  | cons n next ih =>
      obtain ⟨hn, hnext⟩ := uniform_cons.mp hx
      have hnlen : n.ptr.length = B := hn
      cases ys with
      | nil =>
          have hlen := congrArg List.length h
          rw [contents_cons, List.length_append, contents_nil, List.length_nil] at hlen
          omega
      | cons m rest =>
          obtain ⟨hm, hrest⟩ := uniform_cons.mp hy
          have hmlen : m.ptr.length = B := hm
          rw [contents_cons, contents_cons] at h
          obtain ⟨hptr, htail⟩ := List.append_inj h (hnlen.trans hmlen.symm)
          have hnm : n = m := congrArg Node.mk hptr
          rw [hnm, ih hnext hrest htail]

/-- A coherent array is determined by its position, its size and its bytes. -/
theorem Coherent.ext {B : ℕ} {a b : ByteArray} (ha : Coherent B a) (hb : Coherent B b)
    (hpos : a.position = b.position) (hsize : a.size = b.size)
    (hbytes : contents a.nodes = contents b.nodes) : a = b := by
  have hnodes := uniform_ext ha.base_pos ha.uniform hb.uniform hbytes
  have hcap : a.capacity = b.capacity := by rw [ha.capacity, hb.capacity, hnodes]
  have hcur : a.cur = b.cur := by rw [ha.cur, hb.cur, hpos, hcap]
  have hbase : a.baseSize = b.baseSize := by rw [ha.base, hb.base]
  cases a
  cases b
  simp_all

theorem contents_replicate_alloc (B k : ℕ) :
    contents (List.replicate k (Node.alloc B)) = List.replicate (k * B) none := by
  induction k with
  | zero => simp
  | succ k ih =>
      rw [List.replicate_succ, contents_cons, ih, Node.alloc, List.replicate_append_replicate,
        Nat.succ_mul, Nat.add_comm]

/-- The new cells of a grown array are fresh, and no more nodes were added than needed. -/
theorem addCapacity_fresh {B : ℕ} {ba : ByteArray} (h : Coherent B ba) (n : ℕ) :
    contents (ba.addCapacity n).nodes = contents ba.nodes ++
        List.replicate ((ba.addCapacity n).capacity - ba.capacity) none ∧
      ba.capacity ≤ (ba.addCapacity n).capacity ∧
      ((ba.addCapacity n).capacity = ba.capacity ∨
        (ba.addCapacity n).capacity < ba.position + n + B) := by
  have hpos := h.position_le_capacity
  have hold : ba.getCapacity = ba.capacity - ba.position := sizeSub_of_le hpos
  simp only [ByteArray.addCapacity, hold, h.base]
  by_cases hn : n = 0
  · rw [if_pos hn]
    simp
  by_cases hfit : n ≤ ba.capacity - ba.position
  · rw [if_neg hn, if_pos hfit]
    simp
  rw [if_neg hn, if_neg hfit]
  set need := n - (ba.capacity - ba.position) with hneed
  have hceil : (need + B - 1) / B * B ≤ need + B - 1 := Nat.div_mul_le_self _ _
  have hB := h.base_pos
  refine ⟨?_, Nat.le_add_right _ _, .inr ?_⟩
  · rw [contents_append, contents_replicate_alloc, Nat.add_sub_cancel_left]
  · dsimp only
    omega

/-- There is one capacity that is enough for a length and no more than needed. -/
theorem capacity_unique {B need cap c d : ℕ} (hB : 0 < B) (hc : B ∣ c) (hd : B ∣ d) (hcap : B ∣ cap)
    (hcle : cap ≤ c) (hdle : cap ≤ d) (hcneed : need ≤ c) (hdneed : need ≤ d)
    (hctight : c = cap ∨ c < need + B) (hdtight : d = cap ∨ d < need + B) : c = d := by
  obtain ⟨i, rfl⟩ := hc
  obtain ⟨j, rfl⟩ := hd
  obtain ⟨k, rfl⟩ := hcap
  -- two multiples of `B` less than `B` apart
  have close {x y : ℕ} (h : B * x < B * y + B) : x ≤ y := by
    rw [← Nat.mul_succ] at h
    exact Nat.lt_succ_iff.mp (Nat.lt_of_mul_lt_mul_left h)
  rw [Nat.le_antisymm (close (x := i) (y := j) (by omega)) (close (x := j) (y := i) (by omega))]

theorem Coherent.dvd_capacity {B : ℕ} {ba : ByteArray} (h : Coherent B ba) : B ∣ ba.capacity :=
  ⟨ba.nodes.length, h.capacity⟩

/-- Two writes in a row are one write of both. -/
theorem Coherent.write_append {B : ℕ} {ba ba₁ : ByteArray} (h : Coherent B ba)
    {xs : List UInt8} (hrun : ba.write xs = .ok ba₁) (ys : List UInt8) :
    ba₁.write ys = ba.write (xs ++ ys) := by
  obtain ⟨ba₁', hrun', hw₁⟩ := h.write_wrote xs
  obtain rfl := Except.ok.inj (hrun.symm.trans hrun')
  obtain ⟨ba₂, hrun₂, hw₂⟩ := hw₁.coherent.write_wrote ys
  obtain ⟨ba₃, hrun₃, hw₃⟩ := h.write_wrote (xs ++ ys)
  rw [hrun₂, hrun₃]
  obtain ⟨hfresh₁, hle₁, htight₁⟩ := addCapacity_fresh h xs.length
  obtain ⟨hfresh₂, hle₂, htight₂⟩ := addCapacity_fresh hw₁.coherent ys.length
  obtain ⟨hfresh₃, hle₃, htight₃⟩ := addCapacity_fresh h (xs ++ ys).length
  have hroom₁ := (addCapacity_grown h xs.length).room
  have hroom₂ := (addCapacity_grown hw₁.coherent ys.length).room
  have hroom₃ := (addCapacity_grown h (xs ++ ys).length).room
  rw [← hw₁.capacity] at hfresh₁ hle₁ htight₁ hroom₁
  rw [← hw₂.capacity] at hfresh₂ hle₂ htight₂ hroom₂
  rw [← hw₃.capacity] at hfresh₃ hle₃ htight₃ hroom₃
  rw [List.length_append] at htight₃ hroom₃
  rw [hw₁.position] at htight₂ hroom₂
  have hcap : ba₂.capacity = ba₃.capacity :=
    capacity_unique h.base_pos hw₂.coherent.dvd_capacity hw₃.coherent.dvd_capacity h.dvd_capacity
      (hle₁.trans hle₂) hle₃ (by omega) hroom₃ (by omega) (by omega)
  have hpos : ba₂.position = ba₃.position := by
    rw [hw₂.position, hw₁.position, hw₃.position, List.length_append, Nat.add_assoc]
  have hsize : ba₂.size = ba₃.size := by
    rw [hw₂.size, hw₁.size, hw₁.position, hw₃.size, List.length_append]
    omega
  have hbytes : contents ba₂.nodes = contents ba₃.nodes := by
    have hlen : (contents ba.nodes).length = ba.capacity := by
      rw [contents_length h.uniform, h.capacity]
    have hxs : ba.position + (xs.map (some : UInt8 → Cell)).length ≤
        (contents ba.nodes ++ List.replicate (ba₁.capacity - ba.capacity) none).length := by
      rw [List.length_append, List.length_replicate, hlen, List.length_map]
      omega
    have hys : ba.position + (xs.map (some : UInt8 → Cell)).length +
        (ys.map (some : UInt8 → Cell)).length ≤
        (contents ba.nodes ++ List.replicate (ba₁.capacity - ba.capacity) none ++
          List.replicate (ba₂.capacity - ba₁.capacity) none).length := by
      simp only [List.length_append, List.length_replicate, hlen, List.length_map]
      omega
    have hsum : ba₁.capacity - ba.capacity + (ba₂.capacity - ba₁.capacity) =
        ba₃.capacity - ba.capacity := by omega
    have hboth := overlay_append_overlay hxs hys
    rw [List.length_map, List.append_assoc, List.replicate_append_replicate, hsum,
      ← List.map_append] at hboth
    rw [hw₂.bytes, hfresh₂, hw₁.bytes, hfresh₁, hw₁.position, hw₃.bytes, hfresh₃, hboth]
  rw [hw₂.coherent.ext hw₃.coherent hpos hsize hbytes]

/-- The blocks of a file, written one after another, are one write of the file. -/
theorem Coherent.loadLoop_eq {B rounds : ℕ} {ba : ByteArray} (h : Coherent B ba)
    {file : List UInt8} (hrounds : file.length < rounds) :
    loadLoop B rounds ba file = ba.write file := by
  induction rounds generalizing ba file with
  | zero => omega
  | succ rounds ih =>
      obtain ⟨ba₁, hrun, hw⟩ := h.write_wrote (file.take B)
      unfold loadLoop
      rw [hrun]
      dsimp only
      split_ifs with hshort
      · rw [List.take_of_length_le hshort.le] at hrun
        exact hrun.symm
      · have hB := h.base_pos
        have hdrop : (file.drop B).length < rounds := by
          rw [List.length_drop]
          omega
        rw [ih hw.coherent hdrop, h.write_append hrun, List.take_append_drop]

theorem Coherent.readFromFile_eq {B : ℕ} {ba : ByteArray} (h : Coherent B ba)
    (file : List UInt8) :
    ∃ ba', ba.write file = .ok ba' ∧ ba.readFromFile true file = .ok (true, ba') := by
  obtain ⟨ba', hrun, -⟩ := h.write_wrote file
  refine ⟨ba', hrun, ?_⟩
  rw [ByteArray.readFromFile, if_pos rfl, h.base, h.loadLoop_eq (Nat.lt_succ_self _), hrun]

/-- Dump and load are inverse across chunk sizes. For every two arrays reached by writes, seeks
and clears, with any base sizes: the dump of the first is exactly its bytes from the position
to the size, as the positional read sees them, whatever the file held before; and loading a
file with these bytes into the second has the effect of a single write of them. -/
theorem file_round_trip (B₁ B₂ : ℕ) (hB₁ : 1 ≤ B₁) (hB₂ : 1 ≤ B₂) (calls₁ calls₂ : List Call)
    (a b : ByteArray) (ha : run ByteArray.exec (ByteArray.new B₁) calls₁ = some a)
    (hb : run ByteArray.exec (ByteArray.new B₂) calls₂ = some b) (old : List Cell) :
    a.writeToFile true old = .ok (true, a.unread) ∧
    a.unread.length = a.size - a.position ∧
    (0 < a.size - a.position → a.readAt (a.size - a.position) a.position = .ok a.unread) ∧
    ∀ file, Holds file a.unread →
      ∃ b', b.write file = .ok b' ∧ b.readFromFile true file = .ok (true, b') := by
  have hca := run_coherent hB₁ ha
  have hcb := run_coherent hB₂ hb
  refine ⟨hca.writeToFile_eq old, hca.length_unread, fun hpos => ?_, fun file _ => ?_⟩
  · have hle := hca.position_le
    exact hca.readAt_eq hpos (by omega)
  · exact hcb.readFromFile_eq file

/-- Five bytes of an array with base size two, from position 1 on, into one with base size four
that is rewound. -/
theorem file_round_trip_rechunked :
    ∃ a b, run ByteArray.exec (ByteArray.new 2) [.write [1, 2, 3, 4, 5], .setPosition 1] =
        some a ∧
      run ByteArray.exec (ByteArray.new 4) [.write [9, 9], .setPosition 0] = some b ∧
      a.unread = [some 2, some 3, some 4, some 5] ∧
      a.writeToFile true [] = .ok (true, a.unread) ∧
      ∃ b', b.write [2, 3, 4, 5] = .ok b' ∧
        b.readFromFile true [2, 3, 4, 5] = .ok (true, b') := by
  have ha : run ByteArray.exec (ByteArray.new 2) [.write [1, 2, 3, 4, 5], .setPosition 1] =
      some ⟨1, 2, 6, 5, [⟨[some 1, some 2]⟩, ⟨[some 3, some 4]⟩, ⟨[some 5, none]⟩], some 0⟩ := by
    decide
  have hb : run ByteArray.exec (ByteArray.new 4) [.write [9, 9], .setPosition 0] =
      some ⟨0, 4, 4, 2, [⟨[some 9, some 9, none, none]⟩], some 0⟩ := by decide
  obtain ⟨hdump, -, -, hload⟩ := file_round_trip 2 4 (by decide) (by decide) _ _ _ _ ha hb []
  have hholds : Holds [2, 3, 4, 5] [some 2, some 3, some 4, some 5] := by simp [Holds]
  exact ⟨_, _, ha, hb, by decide, hdump, hload [2, 3, 4, 5] hholds⟩

end Xzmjx.ByteArrayModel
