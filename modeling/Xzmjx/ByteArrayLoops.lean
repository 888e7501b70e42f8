import Xzmjx.ByteArrayModel
import Mathlib.Tactic.Ring

/-!
# What the loops of the byte array do to a uniform chain

Every loop is described once, by the bytes of the whole chain laid end to end
and by quotients of positions by the base size. The callers never unfold a loop.
-/
namespace Xzmjx.ByteArrayModel
open BlockList

/-- All nodes of the chain have the base size. -/
def Uniform (B : ℕ) (nodes : List Node) : Prop := ∀ n ∈ nodes, n.size = B

/-- The bytes of a chain, laid end to end. -/
def contents (nodes : List Node) : List Cell := nodes.flatMap Node.ptr

@[simp] theorem contents_nil : contents [] = [] := rfl

@[simp] theorem contents_cons (n : Node) (nodes : List Node) :
    contents (n :: nodes) = n.ptr ++ contents nodes := rfl

@[simp] theorem contents_append (xs ys : List Node) :
    contents (xs ++ ys) = contents xs ++ contents ys := by
  simp [contents]

theorem uniform_cons {B : ℕ} {n : Node} {nodes : List Node} :
    Uniform B (n :: nodes) ↔ n.size = B ∧ Uniform B nodes := by
  simp [Uniform]

theorem uniform_append {B : ℕ} {xs ys : List Node} :
    Uniform B (xs ++ ys) ↔ Uniform B xs ∧ Uniform B ys := by
  simp [Uniform, or_imp, forall_and]

theorem Uniform.take {B : ℕ} {nodes : List Node} (h : Uniform B nodes) (k : ℕ) :
    Uniform B (nodes.take k) := fun n hn => h n (List.mem_of_mem_take hn)

theorem Uniform.drop {B : ℕ} {nodes : List Node} (h : Uniform B nodes) (k : ℕ) :
    Uniform B (nodes.drop k) := fun n hn => h n (List.mem_of_mem_drop hn)

theorem uniform_replicate_alloc (B k : ℕ) : Uniform B (List.replicate k (Node.alloc B)) := by
  intro n hn
  obtain rfl := List.eq_of_mem_replicate hn
  simp [Node.size, Node.alloc]

theorem contents_length {B : ℕ} {nodes : List Node} (h : Uniform B nodes) :
    (contents nodes).length = B * nodes.length := by
  induction nodes with
  | nil => simp
  | cons n nodes ih =>
      obtain ⟨hn, hrest⟩ := uniform_cons.mp h
      have hlen : n.ptr.length = B := hn
      simp only [contents_cons, List.length_append, ih hrest, hlen, List.length_cons]
      ring

/-- A position that ends a node is counted as having left it. -/
theorem boundary_div {B m : ℕ} (hB : 0 < B) (hm : m ≤ B) : m / B = if B = m then 1 else 0 := by
  split_ifs with h
  · subst h
    exact Nat.div_self hB
  · exact Nat.div_eq_of_lt (by omega)

theorem writeLoop_spec {B : ℕ} (hB : 0 < B) {chain : List Node} {npos : ℕ} {buf : List UInt8}
    (hu : Uniform B chain) (hn : npos < B) (hbuf : 0 < buf.length)
    (hroom : npos + buf.length ≤ B * chain.length) :
    ∃ chain', ByteArray.writeLoop chain npos buf = .ok (chain', (npos + buf.length) / B) ∧
      Uniform B chain' ∧ chain'.length = chain.length ∧
      contents chain' = overlay (contents chain) npos (buf.map some) := by
  induction chain generalizing npos buf with
  | nil => simp only [List.length_nil, Nat.mul_zero] at hroom; omega
  | cons n next ih =>
      obtain ⟨hsize, hnext⟩ := uniform_cons.mp hu
      have hptr : n.ptr.length = B := hsize
      simp only [ByteArray.writeLoop, hsize]
      by_cases hfit : buf.length ≤ B - npos
      · -- the write ends in this node
        have hov : npos + (buf.map some).length ≤ n.ptr.length := by
          simp only [List.length_map]
          omega
        refine ⟨⟨overlay n.ptr npos (buf.map some)⟩ :: next, ?_, ?_, rfl, ?_⟩
        · rw [if_pos hfit, boundary_div hB (by omega)]
        · exact uniform_cons.mpr ⟨by simp only [Node.size, overlay_length hov, hptr], hnext⟩
        · rw [contents_cons, contents_cons, overlay_append_left hov]
      · -- the node is filled up and the rest goes to the chain behind it
        have hlen : (buf.drop (B - npos)).length = buf.length - (B - npos) := List.length_drop
        have hroom' : 0 + (buf.drop (B - npos)).length ≤ B * next.length := by
          rw [List.length_cons, Nat.mul_succ] at hroom
          omega
        obtain ⟨next', hrun, hu', hlen', hcont⟩ := ih hnext hB (by omega) hroom'
        have hdiv : (0 + (buf.drop (B - npos)).length) / B + 1 = (npos + buf.length) / B := by
          rw [← Nat.add_div_right _ hB]
          congr 1
          omega
        have hov : npos + ((buf.take (B - npos)).map some).length ≤ n.ptr.length := by
          simp only [List.length_map, List.length_take]
          omega
        refine ⟨⟨overlay n.ptr npos ((buf.take (B - npos)).map some)⟩ :: next', ?_, ?_, ?_, ?_⟩
        · rw [if_neg hfit, hrun]
          simp only [hdiv]
        · exact uniform_cons.mpr ⟨by simp only [Node.size, overlay_length hov, hptr], hu'⟩
        · simp [hlen']
        · rw [contents_cons, contents_cons, hcont,
            overlay_append_across (by omega) (by simp only [List.length_map]; omega),
            hptr, List.map_take, List.map_drop]

theorem readLoop_spec {B : ℕ} {chain : List Node} {npos size : ℕ}
    (hu : Uniform B chain) (hne : chain ≠ []) (hn : npos ≤ B)
    (hroom : npos + size ≤ B * chain.length) :
    ByteArray.readLoop chain npos size = .ok (((contents chain).drop npos).take size) := by
  induction chain generalizing npos size with
  | nil => exact absurd rfl hne
  | cons n next ih =>
      obtain ⟨hsize, hnext⟩ := uniform_cons.mp hu
      have hptr : n.ptr.length = B := hsize
      have hdrop : (contents (n :: next)).drop npos = n.ptr.drop npos ++ contents next := by
        rw [contents_cons, List.drop_append_of_le_length (by omega)]
      have hleft : (n.ptr.drop npos).length = B - npos := by rw [List.length_drop, hptr]
      simp only [ByteArray.readLoop, hsize, hdrop]
      split_ifs with hzero hfit
      · simp [hzero]
      · rw [List.take_append_of_le_length (by omega)]
      · have hne' : next ≠ [] := by
          rintro rfl
          simp only [List.length_cons, List.length_nil] at hroom
          omega
        have hroom' : 0 + (size - (B - npos)) ≤ B * next.length := by
          rw [List.length_cons, Nat.mul_succ] at hroom
          omega
        have hall : (n.ptr.drop npos).take (B - npos) = (n.ptr.drop npos).take size := by
          rw [List.take_of_length_le (by omega), List.take_of_length_le (by omega)]
        rw [ih hnext hne' (Nat.zero_le _) hroom', List.take_append, List.drop_zero, hleft, hall]

/-- The consuming loop delivers the bytes of the positional one. Its count of
nodes is one short exactly when the read begins inside a node and ends where
that node ends. -/
theorem consumeLoop_spec {B : ℕ} (hB : 0 < B) {chain : List Node} {npos size : ℕ}
    (hu : Uniform B chain) (hn : npos < B) (hsize : 0 < size)
    (hroom : npos + size ≤ B * chain.length) :
    ByteArray.consumeLoop chain npos size =
      .ok (((contents chain).drop npos).take size,
        if 0 < npos ∧ npos + size = B then 0 else (npos + size) / B) := by
  induction chain generalizing npos size with
  | nil => simp only [List.length_nil, Nat.mul_zero] at hroom; omega
  | cons n next ih =>
      obtain ⟨hnsize, hnext⟩ := uniform_cons.mp hu
      have hptr : n.ptr.length = B := hnsize
      have hdrop : (contents (n :: next)).drop npos = n.ptr.drop npos ++ contents next := by
        rw [contents_cons, List.drop_append_of_le_length (by omega)]
      have hleft : (n.ptr.drop npos).length = B - npos := by rw [List.length_drop, hptr]
      simp only [ByteArray.consumeLoop, hnsize, hdrop, if_neg (Nat.pos_iff_ne_zero.mp hsize)]
      by_cases hfit : size ≤ B - npos
      · -- the read ends in this node
        have hcount : (if B = size then 1 else 0) =
            if 0 < npos ∧ npos + size = B then 0 else (npos + size) / B := by
          rw [boundary_div hB (by omega)]
          split_ifs <;> omega
        rw [if_pos hfit, hcount, List.take_append_of_le_length (by omega)]
      · have hroom' : 0 + (size - (B - npos)) ≤ B * next.length := by
          rw [List.length_cons, Nat.mul_succ] at hroom
          omega
        have hdiv : (0 + (size - (B - npos))) / B + 1 = (npos + size) / B := by
          rw [← Nat.add_div_right _ hB]
          congr 1
          omega
        have hall : (n.ptr.drop npos).take (B - npos) = (n.ptr.drop npos).take size := by
          rw [List.take_of_length_le (by omega), List.take_of_length_le (by omega)]
        have hcount : ¬(0 < npos ∧ npos + size = B) := by omega
        rw [if_neg hfit, if_neg hcount, ih hnext hB (by omega) hroom', List.take_append,
          List.drop_zero, hleft, hall]
        simp only [lt_irrefl, false_and, if_false, hdiv]

theorem seekLoop_spec {B : ℕ} (hB : 0 < B) {chain : List Node} {pos : ℕ}
    (hu : Uniform B chain) (hne : chain ≠ []) (hpos : pos ≤ B * chain.length) :
    ByteArray.seekLoop chain pos = .ok (pos / B) := by
  induction chain generalizing pos with
  | nil => exact absurd rfl hne
  | cons n next ih =>
      obtain ⟨hsize, hnext⟩ := uniform_cons.mp hu
      rw [List.length_cons, Nat.mul_succ] at hpos
      cases next with
      | nil =>
          rw [List.length_nil, Nat.mul_zero, Nat.zero_add] at hpos
          simp only [ByteArray.seekLoop, hsize, if_neg (Nat.not_lt.mpr hpos)]
          rw [boundary_div hB hpos]
          simp only [eq_comm]
      | cons m rest =>
          have hm : m.size = B := (uniform_cons.mp hnext).1
          simp only [ByteArray.seekLoop, hsize, hm]
          split_ifs with hover hend
          · rw [sizeSub_of_le (Nat.le_of_lt hover)]
            rw [ih hnext (by simp) (by omega)]
            simp only [Except.ok.injEq]
            rw [← Nat.add_div_right _ hB]
            congr 1
            omega
          · rw [boundary_div hB (by omega), if_pos hend.symm]
          · rw [boundary_div hB (by omega), if_neg (Ne.symm hend)]

end Xzmjx.ByteArrayModel
