import Xzmjx.FallibleCalls
import Xzmjx.ByteArrayBuffers
import Xzmjx.ByteArrayReads

/-!
# When the iovec views are exact

A view of `n` bytes at a position ought to be a list of nonempty segments that follow
each other in the chain, begin at the position and hold `n` bytes in all. The three
loops keep asking for all `n` bytes in every node, so a view is exact only if it stays
in one node; and a view of no bytes leaves in the caller's vector what was there.
-/
namespace Xzmjx.ByteArrayModel
open BlockList FallibleCalls StepSystem

/-- The segments are not empty, follow each other from position `p` on, and hold `n` bytes. -/
structure Covers (B : ℕ) (nodes : List Node) (p n : ℕ) (vs : List Iovec) : Prop where
  nonempty : ∀ v ∈ vs, 0 < v.len
  runs : Runs B nodes p vs
  total : total vs = n

/-- A read view returned `n` and a vector that covers the `n` bytes at `p`; these are the bytes
that the positional read would copy. -/
def ReadExact (B : ℕ) (ba : ByteArray) (p n : ℕ) (r : Except Fault (ℕ × List Iovec)) : Prop :=
  ∃ vs, r = .ok (n, vs) ∧ Covers B ba.nodes p n vs ∧
    (0 < n → ba.readAt n p = .ok (gather ba.nodes vs))

/-- The write view returned `n` and a vector that covers `n` bytes at the cursor, in an array
that has grown and is otherwise as it was. -/
def WriteExact (B : ℕ) (ba : ByteArray) (n : ℕ)
    (r : Except Fault (ℕ × List Iovec × ByteArray)) : Prop :=
  ∃ vs ga, r = .ok (n, vs, ga) ∧ Grown B n ba ga ∧ Covers B ga.nodes ba.position n vs

/-- The view of `n` bytes at `p` stays in one node, or is empty and given an empty vector. -/
def OneNode (B p n : ℕ) (buffers : List Iovec) : Prop :=
  n = 0 ∧ buffers = [] ∨ 0 < n ∧ p % B + n ≤ B

instance (B p n : ℕ) (buffers : List Iovec) : Decidable (OneNode B p n buffers) :=
  inferInstanceAs (Decidable (_ ∨ _))

theorem covers_zero_iff {B p : ℕ} {nodes : List Node} {vs : List Iovec} :
    Covers B nodes p 0 vs ↔ vs = [] := by
  constructor
  · intro h
    cases vs with
    | nil => rfl
    | cons v vs =>
        have hlen := h.nonempty v List.mem_cons_self
        have htotal := h.total
        simp only [total, List.map_cons, List.sum_cons] at htotal
        omega
  · rintro rfl
    exact ⟨by simp, trivial, rfl⟩

namespace Coherent

variable {B : ℕ} {ba : ByteArray}

/-- The loop builds an exact view of `n` bytes exactly when the view stays in its node. -/
theorem buffersLoop_covers_iff (h : Coherent B ba) {p n : ℕ} (hn : 0 < n)
    (hroom : p + n ≤ ba.capacity) :
    (∃ vs, ByteArrayModel.buffersLoop (p / B) (ba.nodes.drop (p / B)) (p % B) n = .ok vs ∧
      Covers B ba.nodes p n vs) ↔ p % B + n ≤ B := by
  have hmod := Nat.mod_lt p h.base_pos
  constructor
  · rintro ⟨vs, hloop, hcovers⟩
    by_cases hlong : B < n
    · rw [buffersLoop_long (h.uniform.drop _) hlong] at hloop
      cases hloop
    · obtain ⟨vs', hloop', -, htotal, -⟩ := h.buffersLoop hn (by omega) hroom
      obtain rfl := Except.ok.inj (hloop.symm.trans hloop')
      have hexact := htotal.symm.trans hcovers.total
      -- a view that crosses has the rest of its first node on top
      unfold viewTotal at hexact
      split_ifs at hexact with hfit
      · exact hfit
      · omega
  · intro hfit
    have hlt := h.div_lt (p := p) (by omega)
    have hu := h.uniform.drop (p / B)
    rw [List.drop_eq_getElem_cons hlt] at hu ⊢
    refine ⟨_, buffersLoop_within (uniform_cons.mp hu).1 hfit, ?_, ?_, ?_⟩
    · simpa using hn
    · exact ⟨hlt, hfit, Nat.div_add_mod p B, trivial⟩
    · simp [total]

/-- A read view at `p`, once its loop is known to start in the node of `p`. -/
theorem readExact_iff (h : Coherent B ba) {p n : ℕ} {buffers : List Iovec}
    {r : Except Fault (ℕ × List Iovec)} (hle : p + n ≤ ba.size)
    (hzero : n = 0 → r = .ok (0, buffers))
    (hloop : 0 < n → r = match ByteArrayModel.buffersLoop (p / B) (ba.nodes.drop (p / B))
        (p % B) n with
      | .error e => .error e
      | .ok vs => .ok (n, vs)) :
    ReadExact B ba p n r ↔ OneNode B p n buffers := by
  have hcap := hle.trans h.size_le
  rcases Nat.eq_zero_or_pos n with rfl | hn
  · rw [ReadExact, hzero rfl]
    simp [OneNode, covers_zero_iff, eq_comm]
  · have hiff := h.buffersLoop_covers_iff hn hcap
    have hone : OneNode B p n buffers ↔ p % B + n ≤ B := by
      simp only [OneNode, hn, true_and, or_iff_right_iff_imp]
      omega
    rw [hone, ← hiff, ReadExact, hloop hn]
    constructor
    · rintro ⟨vs, hr, hcovers, -⟩
      split at hr
      · cases hr
      · next vs' hvs =>
          obtain ⟨-, rfl⟩ := Prod.mk.inj (Except.ok.inj hr)
          exact ⟨vs', hvs, hcovers⟩
    · rintro ⟨vs, hvs, hcovers⟩
      refine ⟨vs, by rw [hvs], hcovers, fun _ => ?_⟩
      rw [h.readAt_eq hn hle, gather_spec h.uniform hcovers.runs, hcovers.total]

theorem getReadBuffersInto_exact_iff (h : Coherent B ba) (buffers : List Iovec) (len : ℕ) :
    ReadExact B ba ba.position (min len (ba.size - ba.position))
        (ba.getReadBuffersInto buffers len) ↔
      OneNode B ba.position (min len (ba.size - ba.position)) buffers := by
  have hpos := h.position_le
  have hcap := h.size_le
  have hsize : ba.getReadSize = ba.size - ba.position := sizeSub_of_le hpos
  have hlen : (if ba.size - ba.position < len then ba.size - ba.position else len) =
      min len (ba.size - ba.position) := by
    split_ifs <;> omega
  unfold ByteArray.getReadBuffersInto
  rw [hsize, h.base]
  dsimp only
  rw [hlen]
  refine h.readExact_iff (by omega) (fun hzero => if_pos hzero) fun hn => ?_
  have hcur : ba.cur = some (ba.position / B) := by rw [h.cur, if_neg (by omega)]
  rw [if_neg (by omega)]
  cases hc : ba.cur with
  | none =>
      rw [hcur] at hc
      cases hc
  | some c =>
      obtain rfl := Option.some.inj (hc.symm.trans hcur)
      rfl

theorem getReadBuffersAt_exact_iff (h : Coherent B ba) (buffers : List Iovec) (len : ℕ) {p : ℕ}
    (hp : p ≤ ba.size) :
    ReadExact B ba p (min len (ba.size - p)) (ba.getReadBuffersAt buffers len p) ↔
      OneNode B p (min len (ba.size - p)) buffers := by
  have hlen : (if ba.size - p < len then ba.size - p else len) = min len (ba.size - p) := by
    split_ifs <;> omega
  unfold ByteArray.getReadBuffersAt
  rw [sizeSub_of_le hp, h.base]
  dsimp only
  rw [hlen]
  exact h.readExact_iff (by omega) (fun hzero => if_pos hzero) fun hn => if_neg (by omega)

theorem getWriteBuffersInto_exact_iff (h : Coherent B ba) (buffers : List Iovec) (len : ℕ) :
    WriteExact B ba len (ba.getWriteBuffersInto buffers len) ↔
      OneNode B ba.position len buffers := by
  unfold ByteArray.getWriteBuffersInto
  rcases Nat.eq_zero_or_pos len with rfl | hn
  · have hgrown : Grown B 0 ba ba := addCapacity_grown h 0
    rw [if_pos rfl]
    constructor
    · rintro ⟨vs, ga, hr, -, hcovers⟩
      obtain ⟨-, heq⟩ := Prod.mk.inj (Except.ok.inj hr)
      obtain ⟨rfl, -⟩ := Prod.mk.inj heq
      exact .inl ⟨rfl, covers_zero_iff.mp hcovers⟩
    · rintro (⟨-, rfl⟩ | ⟨hpos, -⟩)
      · exact ⟨[], ba, rfl, hgrown, covers_zero_iff.mpr rfl⟩
      · omega
  · have hone : OneNode B ba.position len buffers ↔ ba.position % B + len ≤ B := by
      simp only [OneNode, hn, true_and, or_iff_right_iff_imp]
      omega
    rw [if_neg (by omega), hone]
    have hg := addCapacity_grown h len
    have hroom : ba.position + len ≤ (ba.addCapacity len).capacity := hg.room
    have hcur : (ba.addCapacity len).cur = some (ba.position / B) := by
      rw [hg.coherent.cur, hg.position, if_neg (by omega)]
    have hiff := hg.coherent.buffersLoop_covers_iff hn hroom
    rw [← hiff, ByteArray.getWriteBuffers, if_neg (by omega)]
    dsimp only
    rw [hcur, hg.coherent.base, hg.position]
    dsimp only
    constructor
    · rintro ⟨vs, ga, hr, -, hcovers⟩
      cases hloop : ByteArrayModel.buffersLoop (ba.position / B)
          ((ba.addCapacity len).nodes.drop (ba.position / B)) (ba.position % B) len with
      | error e =>
          rw [hloop] at hr
          cases hr
      | ok vs' =>
          rw [hloop] at hr
          obtain ⟨-, heq⟩ := Prod.mk.inj (Except.ok.inj hr)
          obtain ⟨rfl, rfl⟩ := Prod.mk.inj heq
          exact ⟨vs', rfl, hcovers⟩
    · rintro ⟨vs, hvs, hcovers⟩
      exact ⟨vs, ba.addCapacity len, by rw [hvs], hg, hcovers⟩

end Coherent

theorem exec_coherent {B : ℕ} (ba : ByteArray) (c : Call) (ba' : ByteArray) (h : Coherent B ba)
    (hstep : ba.exec c = some ba') : Coherent B ba' := by
  cases c with
  | write buf => exact h.of_write (eq_ok_of_toOption hstep)
  | setPosition p => exact h.of_setPosition (eq_ok_of_toOption hstep)
  | clear =>
      obtain rfl := Option.some.inj hstep
      exact (clear_refines h.toRefines).coherent

theorem run_coherent {B : ℕ} (hB : 1 ≤ B) {calls : List Call} {ba : ByteArray}
    (hrun : run ByteArray.exec (ByteArray.new B) calls = some ba) : Coherent B ba :=
  run_preserves (Coherent B) exec_coherent (new_coherent hB) hrun

/-- When the views are exact. In every array reached by writes, seeks and clears, for every
vector that is passed in, every length and every position inside the size: each of the three
views returns the size it should and covers exactly that storage if and only if it stays in
one node, or has no bytes and was given an empty vector. -/
theorem views_exact_iff (B : ℕ) (hB : 1 ≤ B) (calls : List Call) (ba : ByteArray)
    (hrun : run ByteArray.exec (ByteArray.new B) calls = some ba) (buffers : List Iovec)
    (len : ℕ) :
    (ReadExact B ba ba.position (min len (ba.size - ba.position))
        (ba.getReadBuffersInto buffers len) ↔
      OneNode B ba.position (min len (ba.size - ba.position)) buffers) ∧
    (∀ p ≤ ba.size, ReadExact B ba p (min len (ba.size - p)) (ba.getReadBuffersAt buffers len p) ↔
      OneNode B p (min len (ba.size - p)) buffers) ∧
    (WriteExact B ba len (ba.getWriteBuffersInto buffers len) ↔
      OneNode B ba.position len buffers) := by
  have h := run_coherent hB hrun
  exact ⟨h.getReadBuffersInto_exact_iff buffers len,
    fun p hp => h.getReadBuffersAt_exact_iff buffers len hp,
    h.getWriteBuffersInto_exact_iff buffers len⟩

/-- Base size four, five bytes and the cursor at position 1: the views of two bytes there and
of the one byte at position 4 are exact. -/
theorem views_exact_within_node :
    ∃ ba, run ByteArray.exec (ByteArray.new 4) [.write [1, 2, 3, 4, 5], .setPosition 1] =
        some ba ∧
      ReadExact 4 ba 1 2 (ba.getReadBuffersInto [] 2) ∧
      ReadExact 4 ba 4 1 (ba.getReadBuffersAt [⟨0, 0, 1⟩] 2 4) ∧
      WriteExact 4 ba 2 (ba.getWriteBuffersInto [] 2) := by
  have hrun : run ByteArray.exec (ByteArray.new 4) [.write [1, 2, 3, 4, 5], .setPosition 1] =
      some ⟨1, 4, 8, 5, [⟨[some 1, some 2, some 3, some 4]⟩, ⟨[some 5, none, none, none]⟩],
        some 0⟩ := by decide
  obtain ⟨hread, -, hwrite⟩ := views_exact_iff 4 (by decide) _ _ hrun [] 2
  obtain ⟨-, hat, -⟩ := views_exact_iff 4 (by decide) _ _ hrun [⟨0, 0, 1⟩] 2
  exact ⟨_, hrun, hread.mpr (by decide), (hat 4 (by decide)).mpr (by decide),
    hwrite.mpr (by decide)⟩

/-- Base size four, five bytes and the cursor at position 1: the view of the four bytes that
can be read has seven bytes, and a view of five bytes to write runs off the chain. -/
theorem views_across_nodes :
    ∃ ba, run ByteArray.exec (ByteArray.new 4) [.write [1, 2, 3, 4, 5], .setPosition 1] =
        some ba ∧
      ba.getReadBuffersInto [] 4 = .ok (4, [⟨0, 1, 3⟩, ⟨1, 0, 4⟩]) ∧
      ba.getReadBuffersAt [] 4 1 = .ok (4, [⟨0, 1, 3⟩, ⟨1, 0, 4⟩]) ∧
      ba.getWriteBuffersInto [] 5 = .error .nullDeref ∧
      ¬ReadExact 4 ba 1 4 (ba.getReadBuffersInto [] 4) ∧
      ¬ReadExact 4 ba 1 4 (ba.getReadBuffersAt [] 4 1) ∧
      ¬WriteExact 4 ba 5 (ba.getWriteBuffersInto [] 5) := by
  have hrun : run ByteArray.exec (ByteArray.new 4) [.write [1, 2, 3, 4, 5], .setPosition 1] =
      some ⟨1, 4, 8, 5, [⟨[some 1, some 2, some 3, some 4]⟩, ⟨[some 5, none, none, none]⟩],
        some 0⟩ := by decide
  have h := run_coherent (by decide) hrun
  refine ⟨_, hrun, by decide, by decide, by decide, ?_, ?_, ?_⟩
  · exact fun hexact => absurd ((h.getReadBuffersInto_exact_iff [] 4).mp hexact) (by decide)
  · exact fun hexact =>
      absurd ((h.getReadBuffersAt_exact_iff [] 4 (by decide)).mp hexact) (by decide)
  · exact fun hexact => absurd ((h.getWriteBuffersInto_exact_iff [] 5).mp hexact) (by decide)

end Xzmjx.ByteArrayModel
