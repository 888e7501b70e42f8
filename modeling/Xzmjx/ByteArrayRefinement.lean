import Xzmjx.StepSystem
import Xzmjx.ByteArrayLoops

/-!
# The write side of the byte array refines a flat array

The abstract array has a cursor, a size and, for every offset, the byte last
written there since it was cleared. `Coherent` is the invariant of the chunked
representation, `Refines` ties the two together, and a script of writes, seeks
and clears keeps both.
-/
namespace Xzmjx.ByteArrayModel
open BlockList

/-- What the representation promises between calls. -/
structure Coherent (B : ℕ) (ba : ByteArray) : Prop where
  base_pos : 0 < B
  base : ba.baseSize = B
  root : ba.nodes ≠ []
  uniform : Uniform B ba.nodes
  capacity : ba.capacity = B * ba.nodes.length
  position_le : ba.position ≤ ba.size
  size_le : ba.size ≤ ba.capacity
  cur : ba.cur = if ba.position = ba.capacity then none else some (ba.position / B)

/-- The abstract array. Offsets that were never written hold `none`. -/
structure Flat where
  position : ℕ
  size : ℕ
  bytes : ℕ → Option UInt8

namespace Flat

def empty : Flat := ⟨0, 0, fun _ => none⟩

def write (f : Flat) (buf : List UInt8) : Flat where
  position := f.position + buf.length
  size := max f.size (f.position + buf.length)
  bytes k := if f.position ≤ k ∧ k < f.position + buf.length then buf[k - f.position]?
             else f.bytes k

def setPosition (f : Flat) (pos : ℕ) : Flat := { f with position := pos, size := max f.size pos }

end Flat

/-- Every byte the abstract array knows is stored in the chain. -/
def Stores (nodes : List Node) (bytes : ℕ → Option UInt8) : Prop :=
  ∀ k b, bytes k = some b → (contents nodes)[k]? = some (some b)

structure Refines (B : ℕ) (ba : ByteArray) (f : Flat) : Prop where
  coherent : Coherent B ba
  position : ba.position = f.position
  size : ba.size = f.size
  stores : Stores ba.nodes f.bytes

/-- Advancing by the nodes passed from the node of `p` reaches the node of `p + n`. -/
theorem div_add_mod_add_div {B : ℕ} (hB : 0 < B) (p n : ℕ) :
    p / B + (p % B + n) / B = (p + n) / B := by
  conv_rhs => rw [← Nat.div_add_mod p B, Nat.add_assoc, Nat.mul_add_div hB]

namespace Coherent

variable {B : ℕ} {ba : ByteArray}

theorem position_le_capacity (h : Coherent B ba) : ba.position ≤ ba.capacity :=
  h.position_le.trans h.size_le

/-- The node that holds a position below the capacity exists. -/
theorem div_lt (h : Coherent B ba) {p : ℕ} (hp : p < ba.capacity) : p / B < ba.nodes.length := by
  rw [h.capacity] at hp
  exact Nat.div_lt_of_lt_mul hp

/-- `nodeAt` of the quotient is the cursor the invariant asks for. -/
theorem nodeAt_div (h : Coherent B ba) {p : ℕ} (hp : p ≤ ba.capacity) :
    ba.nodeAt (p / B) = if p = ba.capacity then none else some (p / B) := by
  unfold ByteArray.nodeAt
  by_cases hend : p = ba.capacity
  · rw [if_pos hend, if_neg]
    rw [hend, h.capacity, Nat.mul_div_cancel_left _ h.base_pos]
    exact lt_irrefl _
  · rw [if_neg hend, if_pos (h.div_lt (by omega))]

/-- The bytes ahead of a position, as seen from the node that holds it. -/
theorem contents_drop_node (h : Coherent B ba) (p : ℕ) :
    (contents (ba.nodes.drop (p / B))).drop (p % B) = (contents ba.nodes).drop p := by
  by_cases hp : p / B ≤ ba.nodes.length
  · have hsplit := congrArg contents (List.take_append_drop (p / B) ba.nodes)
    have hlen : (contents (ba.nodes.take (p / B))).length = B * (p / B) := by
      rw [contents_length (h.uniform.take _), List.length_take, Nat.min_eq_left hp]
    have hfront : (contents (ba.nodes.take (p / B))).drop p = [] :=
      List.drop_eq_nil_of_le (by rw [hlen]; exact Nat.mul_div_le p B)
    have hmod : p - B * (p / B) = p % B := by
      have := Nat.div_add_mod p B
      omega
    rw [← hsplit, contents_append, List.drop_append, hfront, hlen, hmod, List.nil_append]
  · have hnil : ba.nodes.drop (p / B) = [] := List.drop_eq_nil_of_le (by omega)
    have hle : (contents ba.nodes).length ≤ p := by
      rw [contents_length h.uniform]
      calc B * ba.nodes.length ≤ B * (p / B) := Nat.mul_le_mul_left _ (by omega)
        _ ≤ p := Nat.mul_div_le p B
    rw [hnil, List.drop_eq_nil_of_le hle]
    simp

/-- Copying at a position, done in the node that holds it and the chain behind. -/
theorem contents_overlay_node (h : Coherent B ba) {p : ℕ} (hp : p < ba.capacity)
    {ahead : List Node} {ys : List Cell}
    (hahead : contents ahead = overlay (contents (ba.nodes.drop (p / B))) (p % B) ys) :
    contents (ba.nodes.take (p / B) ++ ahead) = overlay (contents ba.nodes) p ys := by
  have hlt := h.div_lt hp
  have hfront : (contents (ba.nodes.take (p / B))).length = B * (p / B) := by
    rw [contents_length (h.uniform.take _), List.length_take, Nat.min_eq_left hlt.le]
  have hover := overlay_append_right (contents (ba.nodes.take (p / B))) ys
    (contents (ba.nodes.drop (p / B))) (p % B)
  rw [hfront, Nat.div_add_mod, ← contents_append, List.take_append_drop] at hover
  rw [contents_append, hahead, hover]

/-- Room ahead of a position, counted from the node that holds it. -/
theorem room_ahead (h : Coherent B ba) {p n : ℕ} (hp : p < ba.capacity)
    (hn : p + n ≤ ba.capacity) : p % B + n ≤ B * (ba.nodes.drop (p / B)).length := by
  have hlt := h.div_lt hp
  have hmod := Nat.div_add_mod p B
  rw [h.capacity] at hn
  rw [List.length_drop, Nat.mul_sub]
  omega

/-- The positional read is a slice of the contents. -/
theorem readAt_eq (h : Coherent B ba) {n p : ℕ} (hn : 0 < n) (hp : p + n ≤ ba.size) :
    ba.readAt n p = .ok (((contents ba.nodes).drop p).take n) := by
  have hcap : p + n ≤ ba.capacity := hp.trans h.size_le
  have hlt := h.div_lt (p := p) (by omega)
  unfold ByteArray.readAt
  rw [if_neg (by rw [sizeSub_of_le (by omega)]; omega), h.base,
    readLoop_spec (h.uniform.drop _) (by simp only [ne_eq, List.drop_eq_nil_iff]; omega)
      (Nat.le_of_lt (Nat.mod_lt _ h.base_pos)) (h.room_ahead (by omega) hcap),
    h.contents_drop_node]

end Coherent

theorem new_coherent {B : ℕ} (hB : 1 ≤ B) : Coherent B (ByteArray.new B) where
  base_pos := hB
  base := rfl
  root := by simp [ByteArray.new]
  uniform := uniform_replicate_alloc B 1
  capacity := by simp [ByteArray.new]
  position_le := le_rfl
  size_le := Nat.zero_le _
  cur := by
    simp only [ByteArray.new, Nat.zero_div]
    rw [if_neg (by omega)]

theorem new_refines {B : ℕ} (hB : 1 ≤ B) : Refines B (ByteArray.new B) Flat.empty where
  coherent := new_coherent hB
  position := rfl
  size := rfl
  stores := by simp [Stores, Flat.empty]

/-- What `addCapacity` achieves: room for the write, at the same position and
with the old bytes where they were. -/
structure Grown (B n : ℕ) (ba ba' : ByteArray) : Prop where
  coherent : Coherent B ba'
  position : ba'.position = ba.position
  size : ba'.size = ba.size
  room : ba.position + n ≤ ba'.capacity
  bytes : ∃ fresh, contents ba'.nodes = contents ba.nodes ++ fresh

theorem addCapacity_grown {B : ℕ} {ba : ByteArray} (h : Coherent B ba) (n : ℕ) :
    Grown B n ba (ba.addCapacity n) := by
  have hpos := h.position_le_capacity
  have hold : ba.getCapacity = ba.capacity - ba.position := sizeSub_of_le hpos
  have same (hroom : ba.position + n ≤ ba.capacity) : Grown B n ba ba :=
    ⟨h, rfl, rfl, hroom, [], by simp⟩
  simp only [ByteArray.addCapacity, hold, h.base]
  by_cases hn : n = 0
  · rw [if_pos hn]
    exact same (by omega)
  by_cases hfit : n ≤ ba.capacity - ba.position
  · rw [if_neg hn, if_pos hfit]
    exact same (by omega)
  rw [if_neg hn, if_neg hfit]
  set need := n - (ba.capacity - ba.position) with hneed
  have hB := h.base_pos
  have hceil : need ≤ (need + B - 1) / B * B := by
    have hmod := Nat.div_add_mod (need + B - 1) B
    have hlt := Nat.mod_lt (need + B - 1) hB
    rw [Nat.mul_comm] at hmod
    omega
  have hcount : (need + B - 1) / B ≠ 0 := by
    intro h0
    rw [h0] at hceil
    omega
  refine ⟨⟨hB, rfl, ?_, ?_, ?_, h.position_le, ?_, ?_⟩, rfl, rfl, ?_, ?_⟩
  · simp [h.root]
  · exact uniform_append.mpr ⟨h.uniform, uniform_replicate_alloc _ _⟩
  · simp only [List.length_append, List.length_replicate, h.capacity]
    ring
  · exact h.size_le.trans (Nat.le_add_right _ _)
  · dsimp only
    rw [if_neg hcount, if_neg (show ba.position ≠ _ by omega)]
    by_cases hfull : ba.capacity - ba.position = 0
    · -- the cursor was past the last node: it moves to the first new one
      have hend : ba.position = B * ba.nodes.length := by
        have := h.capacity
        omega
      rw [if_pos hfull, hend, Nat.mul_div_cancel_left _ hB]
    · rw [if_neg hfull, h.cur, if_neg (by omega)]
  · dsimp only
    omega
  · exact ⟨_, contents_append _ _⟩

theorem Stores.append {nodes nodes' : List Node} {bytes : ℕ → Option UInt8} {fresh : List Cell}
    (h : Stores nodes bytes) (heq : contents nodes' = contents nodes ++ fresh) :
    Stores nodes' bytes := by
  intro k b hk
  have hold := h k b hk
  have hlt : k < (contents nodes).length := by
    rw [List.getElem?_eq_some_iff] at hold
    exact hold.1
  rw [heq, List.getElem?_append_left hlt]
  exact hold

theorem Stores.overlay {nodes nodes' : List Node} {bytes : ℕ → Option UInt8} {p : ℕ}
    {buf : List UInt8} (h : Stores nodes bytes) (hroom : p + buf.length ≤ (contents nodes).length)
    (heq : contents nodes' = overlay (contents nodes) p (buf.map some)) :
    Stores nodes' fun k => if p ≤ k ∧ k < p + buf.length then buf[k - p]? else bytes k := by
  intro k b hk
  rw [heq, getElem?_overlay (by simpa using hroom), List.length_map]
  dsimp only at hk
  split_ifs at hk ⊢ with hin
  · rw [List.getElem?_map, hk]
    rfl
  · exact h k b hk

/-- What a write leaves: its bytes at the position, in an array that has grown for them. -/
structure Wrote (B : ℕ) (ba : ByteArray) (buf : List UInt8) (ba' : ByteArray) : Prop where
  coherent : Coherent B ba'
  position : ba'.position = ba.position + buf.length
  size : ba'.size = max ba.size (ba.position + buf.length)
  capacity : ba'.capacity = (ba.addCapacity buf.length).capacity
  bytes : contents ba'.nodes =
    overlay (contents (ba.addCapacity buf.length).nodes) ba.position (buf.map some)

theorem Coherent.write_wrote {B : ℕ} {ba : ByteArray} (h : Coherent B ba) (buf : List UInt8) :
    ∃ ba', ba.write buf = .ok ba' ∧ Wrote B ba buf ba' := by
  by_cases hbuf : buf.length = 0
  · obtain rfl : buf = [] := List.length_eq_zero_iff.mp hbuf
    have hle := h.position_le
    exact ⟨ba, rfl, h, rfl, by simp [hle], rfl, by simp [ByteArray.addCapacity]⟩
  obtain ⟨hc, hpos, hsize, hroom, -⟩ := addCapacity_grown h buf.length
  set ga := ba.addCapacity buf.length with hga
  have hgroom : ga.position + buf.length ≤ ga.capacity := by omega
  have hcur : ga.cur = some (ga.position / B) := by rw [hc.cur, if_neg (by omega)]
  have hdiv := hc.div_lt (p := ga.position) (by omega)
  have hB := hc.base_pos
  obtain ⟨ahead, hloop, hahead, hlen, hcont⟩ := writeLoop_spec hB (hc.uniform.drop _)
    (Nat.mod_lt _ hB) (by omega) (hc.room_ahead (by omega) hgroom)
  have hk := div_add_mod_add_div hB ga.position buf.length
  have hnodes : (ga.nodes.take (ga.position / B) ++ ahead).length = ga.nodes.length := by
    rw [List.length_append, hlen, List.length_take, List.length_drop]
    omega
  have hrun : ba.write buf = .ok
      { ga with
        position := ga.position + buf.length
        nodes := ga.nodes.take (ga.position / B) ++ ahead
        cur := ga.nodeAt ((ga.position + buf.length) / B)
        size := if ga.size < ga.position + buf.length then ga.position + buf.length
                else ga.size } := by
    simp only [ByteArray.write, if_neg hbuf, ← hga, hcur, hc.base, hloop, hk]
  refine ⟨_, hrun, ⟨hB, hc.base, ?_, ?_, ?_, ?_, ?_, ?_⟩, ?_, ?_, ?_, ?_⟩
  · exact List.ne_nil_of_length_pos (hnodes ▸ (Nat.zero_le _).trans_lt hdiv)
  · exact uniform_append.mpr ⟨hc.uniform.take _, hahead⟩
  · simp only [hnodes, hc.capacity]
  · dsimp only
    split_ifs <;> omega
  · have := hc.size_le
    dsimp only
    split_ifs <;> omega
  · exact hc.nodeAt_div hgroom
  · simp only [hpos]
  · simp only [hpos, hsize]
    split_ifs <;> omega
  · rw [← hga]
  · rw [← hga, ← hpos]
    exact hc.contents_overlay_node (p := ga.position) (by omega) hcont

/-- One write keeps the refinement, and never fails. -/
theorem write_refines {B : ℕ} {ba : ByteArray} {f : Flat} (h : Refines B ba f)
    (buf : List UInt8) : ∃ ba', ba.write buf = .ok ba' ∧ Refines B ba' (f.write buf) := by
  obtain ⟨ba', hrun, hw⟩ := h.coherent.write_wrote buf
  have hg := addCapacity_grown h.coherent buf.length
  obtain ⟨fresh, hfresh⟩ := hg.bytes
  have hroom : ba.position + buf.length ≤ (contents (ba.addCapacity buf.length).nodes).length := by
    rw [contents_length hg.coherent.uniform, ← hg.coherent.capacity]
    exact hg.room
  refine ⟨ba', hrun, hw.coherent, ?_, ?_, ?_⟩
  · rw [hw.position, h.position]
    rfl
  · rw [hw.size, h.position, h.size]
    rfl
  · have hstore := (h.stores.append hfresh).overlay hroom hw.bytes
    simpa only [Flat.write, h.position] using hstore

theorem setPosition_refines {B : ℕ} {ba : ByteArray} {f : Flat} (h : Refines B ba f) {p : ℕ}
    (hp : p ≤ ba.capacity) :
    ∃ ba', ba.setPosition p = .ok ba' ∧ Refines B ba' (f.setPosition p) := by
  have hc := h.coherent
  have hseek := seekLoop_spec hc.base_pos hc.uniform hc.root (hc.capacity ▸ hp)
  have hrun : ba.setPosition p = .ok
      { ba with
        position := p
        size := if ba.size < p then p else ba.size
        cur := ba.nodeAt (p / B) } := by
    simp only [ByteArray.setPosition, if_neg (Nat.not_lt.mpr hp), hseek]
  refine ⟨_, hrun, ⟨hc.base_pos, hc.base, hc.root, hc.uniform, hc.capacity, ?_, ?_, ?_⟩, rfl, ?_,
    h.stores⟩
  · dsimp only
    split_ifs <;> omega
  · have := hc.size_le
    dsimp only
    split_ifs <;> omega
  · exact hc.nodeAt_div hp
  · simp only [Flat.setPosition, h.size]
    split_ifs <;> omega

theorem clear_refines {B : ℕ} {ba : ByteArray} {f : Flat} (h : Refines B ba f) :
    Refines B ba.clear Flat.empty := by
  have hc := h.coherent
  have hone : (ba.nodes.take 1).length = 1 := by
    have := List.length_pos_iff.mpr hc.root
    rw [List.length_take]
    omega
  refine ⟨⟨hc.base_pos, hc.base, ?_, hc.uniform.take 1, ?_, le_rfl, Nat.zero_le _, ?_⟩, rfl, rfl,
    by simp [Stores, Flat.empty]⟩
  · rw [← List.length_pos_iff]
    exact hone ▸ Nat.one_pos
  · simp only [ByteArray.clear, hone, hc.base, Nat.mul_one]
  · have hpos := hc.base_pos
    simp only [ByteArray.clear, hc.base, Nat.zero_div]
    rw [if_neg (by omega)]

/-- The calls of the write side. -/
inductive Call
  | write (buf : List UInt8)
  | setPosition (pos : ℕ)
  | clear
  deriving DecidableEq, Repr

/-- One call; it is impossible where the source throws or faults. -/
def ByteArray.exec (ba : ByteArray) : Call → Option ByteArray
  | .write buf => (ba.write buf).toOption
  | .setPosition pos => (ba.setPosition pos).toOption
  | .clear => some ba.clear

def Flat.exec (f : Flat) : Call → Flat
  | .write buf => f.write buf
  | .setPosition pos => f.setPosition pos
  | .clear => Flat.empty

/-- A seek is asked for a position within the capacity. -/
def WithinCapacity (ba : ByteArray) : Call → Prop
  | .setPosition pos => pos ≤ ba.capacity
  | _ => True

instance (ba : ByteArray) : (c : Call) → Decidable (WithinCapacity ba c)
  | .setPosition pos => inferInstanceAs (Decidable (pos ≤ ba.capacity))
  | .write _ => isTrue trivial
  | .clear => isTrue trivial

theorem exec_refines {B : ℕ} (ba : ByteArray) (f : Flat) (c : Call) (h : Refines B ba f)
    (hc : WithinCapacity ba c) : ∃ ba', ba.exec c = some ba' ∧ Refines B ba' (f.exec c) := by
  cases c with
  | write buf =>
      obtain ⟨ba', hrun, hr⟩ := write_refines h buf
      exact ⟨ba', by rw [ByteArray.exec, hrun]; rfl, hr⟩
  | setPosition p =>
      obtain ⟨ba', hrun, hr⟩ := setPosition_refines h hc
      exact ⟨ba', by rw [ByteArray.exec, hrun]; rfl, hr⟩
  | clear => exact ⟨_, rfl, clear_refines h⟩

/-- The write side refines a flat byte array. For every base size and every
sequence of writes, seeks within the capacity and clears, every call returns; the
capacity, the size, the position and the cached node are related as they should
be; and every positional read inside the size returns, wherever something was
written since the last clear, the byte most recently written there. -/
theorem write_side_refines_flat (B : ℕ) (hB : 1 ≤ B) (calls : List Call)
    (hseek : StepSystem.AllSteps ByteArray.exec WithinCapacity (ByteArray.new B) calls) :
    ∃ ba, StepSystem.run ByteArray.exec (ByteArray.new B) calls = some ba ∧
      ba.capacity = B * ba.nodes.length ∧
      ba.position ≤ ba.size ∧ ba.size ≤ ba.capacity ∧
      ba.cur = (if ba.position = ba.capacity then none else some (ba.position / B)) ∧
      ba.position = (calls.foldl Flat.exec Flat.empty).position ∧
      ba.size = (calls.foldl Flat.exec Flat.empty).size ∧
      ∀ p n, 0 < n → p + n ≤ ba.size → ∃ cells, ba.readAt n p = .ok cells ∧ cells.length = n ∧
        ∀ i b, i < n → (calls.foldl Flat.exec Flat.empty).bytes (p + i) = some b →
          cells[i]? = some (some b) := by
  obtain ⟨ba, hrun, hr⟩ :=
    StepSystem.run_refines (Refines B) Flat.exec exec_refines (new_refines hB) hseek
  have hc := hr.coherent
  refine ⟨ba, hrun, hc.capacity, hc.position_le, hc.size_le, hc.cur, hr.position, hr.size, ?_⟩
  intro p n hn hp
  refine ⟨_, hc.readAt_eq hn hp, ?_, ?_⟩
  · have hlen := contents_length hc.uniform
    have hle := hc.size_le
    rw [← hc.capacity] at hlen
    rw [List.length_take, List.length_drop, hlen]
    omega
  · intro i b hi hwritten
    rw [List.getElem?_take_of_lt hi, List.getElem?_drop]
    exact hr.stores _ _ hwritten

/-- Base size two: a write across two nodes, a rewind, and an overlapping write
that ends on a node boundary at the full capacity. -/
theorem write_side_refines_flat_rewind :
    ∃ ba, StepSystem.run ByteArray.exec (ByteArray.new 2)
        [.write [1, 2, 3], .setPosition 1, .write [7, 8, 9]] = some ba ∧
      ba.capacity = 2 * ba.nodes.length ∧ ba.cur = none ∧
      ∃ cells, ba.readAt 4 0 = .ok cells ∧ cells.length = 4 ∧ cells[1]? = some (some 7) := by
  obtain ⟨ba, hrun, hcap, -, -, -, -, -, hread⟩ := write_side_refines_flat 2 (by decide)
    [.write [1, 2, 3], .setPosition 1, .write [7, 8, 9]] (by decide)
  have heval : StepSystem.run ByteArray.exec (ByteArray.new 2)
      [.write [1, 2, 3], .setPosition 1, .write [7, 8, 9]] =
      some ⟨4, 2, 4, 4, [⟨[some 1, some 7]⟩, ⟨[some 8, some 9]⟩], none⟩ := by decide
  obtain rfl := Option.some.inj (hrun.symm.trans heval)
  obtain ⟨cells, hcells, hlen, hbytes⟩ := hread 0 4 (by decide) (by decide)
  exact ⟨_, hrun, hcap, rfl, cells, hcells, hlen, hbytes 1 7 (by decide) (by decide)⟩

end Xzmjx.ByteArrayModel
