import Xzmjx.ByteArrayRefinement

/-!
# The iovec views of the byte array

`getReadBuffers` and `getWriteBuffers` hand out the memory of the chain to
`sendmsg` and `recvmsg`. Where a view leaves a node, the source goes on to the
next one without taking the bytes of the first off the length it still needs: a
view that crosses one boundary is too long by what it had in the first node, and
one of more than a node runs off the chain.
-/
namespace Xzmjx.ByteArrayModel
open BlockList

/-- An `iovec`; its base is an offset into a node of the chain. -/
structure Iovec where
  node : ℕ
  offset : ℕ
  len : ℕ
  deriving DecidableEq, Repr

/-- The loop of the views, from node `i` on. -/
def buffersLoop (i : ℕ) : List Node → ℕ → ℕ → Except Fault (List Iovec)
  | [], _, _ => .error .nullDeref
  | n :: next, npos, len =>
      let ncap := n.size - npos
      if len ≤ ncap then .ok [⟨i, npos, len⟩]
      else
        match buffersLoop (i + 1) next 0 len with
        | .error e => .error e
        | .ok vs => .ok (⟨i, npos, ncap⟩ :: vs)

namespace ByteArray

/-- `getReadBuffers(buffers, len)`, with `buffers` empty before. -/
def getReadBuffers (ba : ByteArray) (len : ℕ) : Except Fault (List Iovec) :=
  let len := if ba.getReadSize < len then ba.getReadSize else len
  if len = 0 then .ok []
  else
    match ba.cur with
    | none => .error .nullDeref
    | some c => buffersLoop c (ba.nodes.drop c) (ba.position % ba.baseSize) len

/-- `getWriteBuffers(buffers, len)`, with `buffers` empty before. -/
def getWriteBuffers (ba : ByteArray) (len : ℕ) : Except Fault (List Iovec × ByteArray) :=
  if len = 0 then .ok ([], ba)
  else
    let ba := ba.addCapacity len
    match ba.cur with
    | none => .error .nullDeref
    | some c =>
        match buffersLoop c (ba.nodes.drop c) (ba.position % ba.baseSize) len with
        | .error e => .error e
        | .ok vs => .ok (vs, ba)

/-- `getReadBuffers(buffers, len)` on any vector: the result and the vector, which is cleared
only if there is something to hand out. -/
def getReadBuffersInto (ba : ByteArray) (buffers : List Iovec) (len : ℕ) :
    Except Fault (ℕ × List Iovec) :=
  let len := if ba.getReadSize < len then ba.getReadSize else len
  if len = 0 then .ok (0, buffers)
  else
    match ba.cur with
    | none => .error .nullDeref
    | some c =>
        match buffersLoop c (ba.nodes.drop c) (ba.position % ba.baseSize) len with
        | .error e => .error e
        | .ok vs => .ok (len, vs)

/-- `getReadBuffers(buffers, len, position)`, which walks to its node from `m_root`. -/
def getReadBuffersAt (ba : ByteArray) (buffers : List Iovec) (len position : ℕ) :
    Except Fault (ℕ × List Iovec) :=
  let len := if sizeSub ba.size position < len then sizeSub ba.size position else len
  if len = 0 then .ok (0, buffers)
  else
    let nodeCount := position / ba.baseSize
    match buffersLoop nodeCount (ba.nodes.drop nodeCount) (position % ba.baseSize) len with
    | .error e => .error e
    | .ok vs => .ok (len, vs)

/-- `getWriteBuffers(buffers, len)` on any vector. -/
def getWriteBuffersInto (ba : ByteArray) (buffers : List Iovec) (len : ℕ) :
    Except Fault (ℕ × List Iovec × ByteArray) :=
  if len = 0 then .ok (0, buffers, ba)
  else
    match ba.getWriteBuffers len with
    | .error e => .error e
    | .ok (vs, ba) => .ok (len, vs, ba)

end ByteArray

/-- The bytes that fit in a list of buffers. -/
def total (vs : List Iovec) : ℕ := (vs.map Iovec.len).sum

/-- `recvmsg`: the bytes go to the buffers in order. -/
def scatter (nodes : List Node) : List Iovec → List UInt8 → List Node
  | [], _ => nodes
  | v :: vs, bytes =>
      scatter (nodes.modify v.node fun n =>
        ⟨overlay n.ptr v.offset ((bytes.take v.len).map some)⟩) vs (bytes.drop v.len)

/-- `sendmsg`: what the buffers hold, in order. -/
def gather (nodes : List Node) (vs : List Iovec) : List Cell :=
  vs.flatMap fun v => (((nodes[v.node]?.map Node.ptr).getD []).drop v.offset).take v.len

/-! ### Buffers that follow each other in the chain -/

/-- The buffers cover the bytes of the chain from position `p` on. -/
def Runs (B : ℕ) (nodes : List Node) : ℕ → List Iovec → Prop
  | _, [] => True
  | p, v :: vs => v.node < nodes.length ∧ v.offset + v.len ≤ B ∧ B * v.node + v.offset = p ∧
      Runs B nodes (p + v.len) vs

theorem contents_modify {B : ℕ} {nodes : List Node} {i off : ℕ} {ys : List Cell}
    (hu : Uniform B nodes) (hi : i < nodes.length) (hfit : off + ys.length ≤ B) :
    contents (nodes.modify i fun n => ⟨overlay n.ptr off ys⟩) =
      overlay (contents nodes) (B * i + off) ys := by
  induction nodes generalizing i with
  | nil => simp at hi
  | cons n next ih =>
      obtain ⟨hsize, hnext⟩ := uniform_cons.mp hu
      have hptr : n.ptr.length = B := hsize
      cases i with
      | zero =>
          simp only [List.modify_zero_cons, contents_cons, Nat.mul_zero, Nat.zero_add]
          rw [overlay_append_left (by omega)]
      | succ i =>
          have hpos : B * (i + 1) + off = n.ptr.length + (B * i + off) := by
            rw [hptr, Nat.mul_succ]
            omega
          rw [List.modify_succ_cons, contents_cons, contents_cons, hpos, overlay_append_right,
            ih hnext (by simpa using hi)]

theorem uniform_modify {B : ℕ} {nodes : List Node} {i off : ℕ} {ys : List Cell}
    (hu : Uniform B nodes) (hfit : off + ys.length ≤ B) :
    Uniform B (nodes.modify i fun n => ⟨overlay n.ptr off ys⟩) := by
  induction nodes generalizing i with
  | nil => simp [Uniform]
  | cons n next ih =>
      obtain ⟨hsize, hnext⟩ := uniform_cons.mp hu
      have hptr : n.ptr.length = B := hsize
      cases i with
      | zero =>
          rw [List.modify_zero_cons]
          exact uniform_cons.mpr ⟨(overlay_length (by omega)).trans hptr, hnext⟩
      | succ i =>
          rw [List.modify_succ_cons]
          exact uniform_cons.mpr ⟨hsize, ih hnext⟩

theorem contents_drop_take {B : ℕ} {nodes : List Node} {i off len : ℕ} (hu : Uniform B nodes)
    (hi : i < nodes.length) (hfit : off + len ≤ B) :
    ((contents nodes).drop (B * i + off)).take len =
      (((nodes[i]?.map Node.ptr).getD []).drop off).take len := by
  induction nodes generalizing i with
  | nil => simp at hi
  | cons n next ih =>
      obtain ⟨hsize, hnext⟩ := uniform_cons.mp hu
      have hptr : n.ptr.length = B := hsize
      cases i with
      | zero =>
          rw [Nat.mul_zero, Nat.zero_add, contents_cons, List.drop_append_of_le_length (by omega),
            List.take_append_of_le_length (by rw [List.length_drop]; omega)]
          simp
      | succ i =>
          have hpos : B * (i + 1) + off = n.ptr.length + (B * i + off) := by
            rw [hptr, Nat.mul_succ]
            omega
          rw [contents_cons, hpos, List.drop_length_add_append, ih hnext (by simpa using hi)]
          simp

theorem Runs.congr {B p : ℕ} {nodes nodes' : List Node} {vs : List Iovec}
    (h : Runs B nodes p vs) (hlen : nodes'.length = nodes.length) : Runs B nodes' p vs := by
  induction vs generalizing p with
  | nil => trivial
  | cons v vs ih =>
      obtain ⟨hnode, hfit, hpos, hrest⟩ := h
      exact ⟨hlen ▸ hnode, hfit, hpos, ih hrest⟩

theorem Runs.le {B p : ℕ} {nodes : List Node} {vs : List Iovec} (h : Runs B nodes p vs)
    (hp : p ≤ B * nodes.length) : p + total vs ≤ B * nodes.length := by
  induction vs generalizing p with
  | nil => simpa [total] using hp
  | cons v vs ih =>
      obtain ⟨hnode, hfit, hpos, hrest⟩ := h
      have hend : B * (v.node + 1) ≤ B * nodes.length := Nat.mul_le_mul_left _ hnode
      rw [Nat.mul_succ] at hend
      have hle := ih hrest (by omega)
      simp only [total, List.map_cons, List.sum_cons] at hle ⊢
      omega

/-- What `recvmsg` leaves in the chain. -/
theorem scatter_spec {B p : ℕ} {nodes : List Node} {vs : List Iovec} {bytes : List UInt8}
    (hu : Uniform B nodes) (h : Runs B nodes p vs) (hp : p ≤ B * nodes.length)
    (hlen : bytes.length ≤ total vs) :
    contents (scatter nodes vs bytes) = overlay (contents nodes) p (bytes.map some) ∧
      Uniform B (scatter nodes vs bytes) ∧ (scatter nodes vs bytes).length = nodes.length := by
  induction vs generalizing nodes p bytes with
  | nil =>
      obtain rfl : bytes = [] := by simpa [total] using hlen
      exact ⟨by simp [scatter], hu, rfl⟩
  | cons v vs ih =>
      have hle := h.le hp
      obtain ⟨hnode, hfit, hpos, hrest⟩ := h
      have hfirst : v.offset + ((bytes.take v.len).map some).length ≤ B := by
        rw [List.length_map, List.length_take]
        omega
      have hcont := contents_modify hu hnode hfirst
      have hu' := uniform_modify (i := v.node) hu hfirst
      simp only [total, List.map_cons, List.sum_cons] at hle hlen ih
      set nodes' := nodes.modify v.node fun n =>
        (⟨overlay n.ptr v.offset ((bytes.take v.len).map some)⟩ : Node) with hnodes'
      have hlength : nodes'.length = nodes.length := List.length_modify _ _ _
      have hdrop : (bytes.drop v.len).length ≤ (vs.map Iovec.len).sum := by
        rw [List.length_drop]
        omega
      obtain ⟨hc, hu'', hl⟩ := ih hu' (hrest.congr hlength) (by rw [hlength]; omega) hdrop
      simp only [scatter, ← hnodes']
      refine ⟨?_, hu'', hl.trans hlength⟩
      rw [hc, hcont, hpos]
      by_cases hshort : bytes.length ≤ v.len
      · rw [List.drop_eq_nil_of_le hshort, List.take_of_length_le hshort]
        simp
      · have htake : ((bytes.take v.len).map (some : UInt8 → Cell)).length = v.len := by
          rw [List.length_map, List.length_take]
          omega
        have hroom : p + ((bytes.take v.len).map (some : UInt8 → Cell)).length +
            ((bytes.drop v.len).map (some : UInt8 → Cell)).length ≤ (contents nodes).length := by
          rw [contents_length hu, htake, List.length_map, List.length_drop]
          omega
        have hjoin := overlay_overlay hroom
        rw [htake, ← List.map_append, List.take_append_drop] at hjoin
        exact hjoin

/-- What `sendmsg` takes from the chain. -/
theorem gather_spec {B p : ℕ} {nodes : List Node} {vs : List Iovec} (hu : Uniform B nodes)
    (h : Runs B nodes p vs) : gather nodes vs = ((contents nodes).drop p).take (total vs) := by
  induction vs generalizing p with
  | nil => simp [gather, total]
  | cons v vs ih =>
      obtain ⟨hnode, hfit, hpos, hrest⟩ := h
      have hfirst := contents_drop_take hu hnode hfit
      rw [hpos] at hfirst
      have htail := ih hrest
      simp only [gather, total, List.flatMap_cons, List.map_cons, List.sum_cons] at htail ⊢
      rw [htail, ← hfirst, List.take_add, List.drop_drop]

/-! ### What the loop of the views builds -/

/-- The view stays in its first node. -/
theorem buffersLoop_within {B i npos len : ℕ} {n : Node} {next : List Node} (hn : n.size = B)
    (hfit : npos + len ≤ B) : buffersLoop i (n :: next) npos len = .ok [⟨i, npos, len⟩] := by
  rw [buffersLoop]
  rw [if_pos (by omega)]

/-- The view crosses into the second node, where it begins anew. -/
theorem buffersLoop_across {B i npos len : ℕ} {n m : Node} {next : List Node} (hn : n.size = B)
    (hm : m.size = B) (hnpos : npos ≤ B) (hcross : B < npos + len) (hfit : len ≤ B) :
    buffersLoop i (n :: m :: next) npos len = .ok [⟨i, npos, B - npos⟩, ⟨i + 1, 0, len⟩] := by
  rw [buffersLoop]
  rw [if_neg (by omega), buffersLoop_within hm (by omega), hn]

/-- A view of more than a node finds no end. -/
theorem buffersLoop_long {B i npos len : ℕ} {chain : List Node} (hu : Uniform B chain)
    (hlong : B < len) : buffersLoop i chain npos len = .error .nullDeref := by
  induction chain generalizing i npos with
  | nil => rfl
  | cons n next ih =>
      obtain ⟨hsize, hnext⟩ := uniform_cons.mp hu
      rw [buffersLoop]
      rw [if_neg (by omega), ih hnext]

/-- The length of a view of `len` bytes at a position, for `len` at most a node. -/
def viewTotal (B pos len : ℕ) : ℕ := if pos % B + len ≤ B then len else B - pos % B + len

theorem le_viewTotal (B pos len : ℕ) : len ≤ viewTotal B pos len := by
  unfold viewTotal
  split_ifs <;> omega

/-- A view of at most a node in a coherent array. -/
theorem Coherent.buffersLoop {B p len : ℕ} {ba : ByteArray} (h : Coherent B ba) (hpos : 0 < len)
    (hB : len ≤ B) (hroom : p + len ≤ ba.capacity) :
    ∃ vs, buffersLoop (p / B) (ba.nodes.drop (p / B)) (p % B) len = .ok vs ∧
      Runs B ba.nodes p vs ∧ total vs = viewTotal B p len ∧
      vs.length = if p % B + len ≤ B then 1 else 2 := by
  have hlt := h.div_lt (p := p) (by omega)
  have hmod := Nat.mod_lt p h.base_pos
  have hdm := Nat.div_add_mod p B
  have hu := h.uniform.drop (p / B)
  unfold viewTotal
  by_cases hfit : p % B + len ≤ B
  · rw [List.drop_eq_getElem_cons hlt] at hu ⊢
    refine ⟨_, buffersLoop_within (uniform_cons.mp hu).1 hfit, ⟨hlt, hfit, hdm, trivial⟩, ?_, ?_⟩
    · simp [total, hfit]
    · simp [hfit]
  · have hlt' : p / B + 1 < ba.nodes.length := by
      have hahead := h.room_ahead (by omega) hroom
      rw [List.length_drop] at hahead
      by_contra hc
      have hone : ba.nodes.length - p / B ≤ 1 := by omega
      have := Nat.mul_le_mul_left B hone
      omega
    rw [List.drop_eq_getElem_cons hlt, List.drop_eq_getElem_cons hlt'] at hu ⊢
    obtain ⟨hn, hrest⟩ := uniform_cons.mp hu
    refine ⟨_, buffersLoop_across hn (uniform_cons.mp hrest).1 hmod.le (by omega) hB,
      ⟨hlt, by dsimp only; omega, hdm, hlt', by dsimp only; omega, ?_, trivial⟩, ?_, ?_⟩
    · rw [Nat.mul_succ]
      dsimp only
      omega
    · simp [total, hfit]
    · simp [hfit]

/-! ### Through the abstract array -/

theorem Flat.write_write (f : Flat) (xs ys : List UInt8) :
    (f.write xs).write ys = f.write (xs ++ ys) := by
  have hbytes : ((f.write xs).write ys).bytes = (f.write (xs ++ ys)).bytes := by
    funext k
    change (if f.position + xs.length ≤ k ∧ k < f.position + xs.length + ys.length
      then ys[k - (f.position + xs.length)]?
      else if f.position ≤ k ∧ k < f.position + xs.length then xs[k - f.position]?
      else f.bytes k) = if f.position ≤ k ∧ k < f.position + (xs ++ ys).length
      then (xs ++ ys)[k - f.position]? else f.bytes k
    rw [List.length_append]
    by_cases hy : f.position + xs.length ≤ k ∧ k < f.position + xs.length + ys.length
    · rw [if_pos hy, if_pos (by omega), List.getElem?_append_right (by omega)]
      congr 1
      omega
    · rw [if_neg hy]
      by_cases hx : f.position ≤ k ∧ k < f.position + xs.length
      · rw [if_pos hx, if_pos (by omega), List.getElem?_append_left (by omega)]
      · rw [if_neg hx, if_neg (by omega)]
  have hpos : ((f.write xs).write ys).position = (f.write (xs ++ ys)).position := by
    simp only [Flat.write, List.length_append]
    omega
  have hsize : ((f.write xs).write ys).size = (f.write (xs ++ ys)).size := by
    simp only [Flat.write, List.length_append]
    omega
  exact Flat.mk.injEq .. ▸ ⟨hpos, hsize, hbytes⟩

/-- `getWriteBuffers` for at most a node: room for the view behind the position. -/
theorem getWriteBuffers_grown {B n : ℕ} {ba : ByteArray} (h : Coherent B ba) (hpos : 0 < n)
    (hB : n ≤ B) :
    ∃ vs ga, ba.getWriteBuffers n = .ok (vs, ga) ∧ Grown B n ba ga ∧
      Runs B ga.nodes ga.position vs ∧ total vs = viewTotal B ba.position n := by
  have hg := addCapacity_grown h n
  have hroom : (ba.addCapacity n).position + n ≤ (ba.addCapacity n).capacity :=
    hg.position ▸ hg.room
  have hcur : (ba.addCapacity n).cur = some ((ba.addCapacity n).position / B) := by
    rw [hg.coherent.cur, if_neg (by omega)]
  obtain ⟨vs, hloop, hruns, htotal, -⟩ := hg.coherent.buffersLoop hpos hB hroom
  refine ⟨vs, ba.addCapacity n, ?_, hg, hruns, hg.position ▸ htotal⟩
  unfold ByteArray.getWriteBuffers
  rw [if_neg (by omega)]
  dsimp only
  rw [hcur, hg.coherent.base]
  dsimp only
  rw [hloop]

theorem getWriteBuffers_long {B n : ℕ} {ba : ByteArray} (h : Coherent B ba) (hB : B < n) :
    ba.getWriteBuffers n = .error .nullDeref := by
  have hg := addCapacity_grown h n
  have hroom := hg.room
  have hcur : (ba.addCapacity n).cur = some ((ba.addCapacity n).position / B) := by
    rw [hg.coherent.cur, if_neg (by rw [hg.position]; omega)]
  unfold ByteArray.getWriteBuffers
  rw [if_neg (by omega)]
  dsimp only
  rw [hcur]
  dsimp only
  rw [buffersLoop_long (hg.coherent.uniform.drop _) hB]

/-- `getReadBuffers` in a coherent array with something to read. -/
theorem getReadBuffers_eq {B n : ℕ} {ba : ByteArray} (h : Coherent B ba)
    (hread : ba.position < ba.size) (hpos : 0 < n) :
    ba.getReadBuffers n = ByteArrayModel.buffersLoop (ba.position / B)
      (ba.nodes.drop (ba.position / B)) (ba.position % B) (min n (ba.size - ba.position)) := by
  have hsize : ba.getReadSize = ba.size - ba.position := sizeSub_of_le h.position_le
  have hle := h.size_le
  have hcur : ba.cur = some (ba.position / B) := by rw [h.cur, if_neg (by omega)]
  have hlen : (if ba.size - ba.position < n then ba.size - ba.position else n) =
      min n (ba.size - ba.position) := by
    split_ifs <;> omega
  unfold ByteArray.getReadBuffers
  rw [hsize, hcur, h.base]
  dsimp only
  rw [hlen, if_neg (by omega)]

/-- Bytes received into a view and the seek behind them are a write. -/
theorem scatter_refines {B n : ℕ} {ba ga : ByteArray} {f : Flat} {vs : List Iovec}
    {got : List UInt8} (h : Refines B ba f) (hg : Grown B n ba ga)
    (hruns : Runs B ga.nodes ga.position vs) (hgot : got.length ≤ total vs) :
    ∃ ba', { ga with nodes := scatter ga.nodes vs got }.setPosition (ga.position + got.length) =
      .ok ba' ∧ Refines B ba' (f.write got) := by
  have hc := hg.coherent
  have hp : ga.position ≤ B * ga.nodes.length := hc.capacity ▸ hc.position_le_capacity
  obtain ⟨hcont, hu, hlen⟩ := scatter_spec hc.uniform hruns hp hgot
  have hend := hruns.le hp
  have hposf : ga.position = f.position := hg.position.trans h.position
  have hstores : Stores (scatter ga.nodes vs got) (f.write got).bytes := by
    obtain ⟨fresh, hfresh⟩ := hg.bytes
    have hover := (h.stores.append hfresh).overlay
      (by rw [contents_length hc.uniform]; omega) hcont
    simpa only [Flat.write, hposf] using hover
  have hr : Refines B { ga with nodes := scatter ga.nodes vs got }
      { f with bytes := (f.write got).bytes } := by
    refine ⟨⟨hc.base_pos, hc.base, ?_, hu, ?_, hc.position_le, hc.size_le, hc.cur⟩, hposf,
      hg.size.trans h.size, hstores⟩
    · rw [← List.length_pos_iff]
      dsimp only
      rw [hlen]
      exact List.length_pos_iff.mpr hc.root
    · dsimp only
      rw [hlen]
      exact hc.capacity
  obtain ⟨ba', hset, hr'⟩ := setPosition_refines hr (p := ga.position + got.length)
    (by dsimp only; rw [hc.capacity]; omega)
  refine ⟨ba', hset, ?_⟩
  have hf : { f with bytes := (f.write got).bytes }.setPosition (ga.position + got.length) =
      f.write got := by
    simp only [Flat.setPosition, Flat.write, hposf]
  exact hf ▸ hr'

end Xzmjx.ByteArrayModel
