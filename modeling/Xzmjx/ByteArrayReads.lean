import Xzmjx.ByteArrayRefinement

/-!
# The consuming read against the positional read

A caller mixes writes, seeks, clears and consuming reads, and goes on after an
`out_of_range` exception, which every call throws before it changes anything.
The consuming read keeps the cached node right except in one situation: it
begins inside a node and ends exactly where that node ends. A run agrees with
the positional read at every consuming read exactly when that never happens.
-/
namespace Xzmjx.ByteArrayModel

inductive Access
  | write (buf : List UInt8)
  | read (n : ℕ) (pos : 0 < n)
  | setPosition (pos : ℕ)
  | clear
  deriving DecidableEq

/-- What the caller holds after a call: an exception leaves the array as it was,
a null dereference leaves nothing. -/
def ByteArray.settle (ba : ByteArray) : Except Fault ByteArray → Option ByteArray
  | .ok ba' => some ba'
  | .error (.outOfRange _) => some ba
  | .error .nullDeref => none

def ByteArray.access (ba : ByteArray) : Access → Option ByteArray
  | .write buf => ba.settle (ba.write buf)
  | .read n _ => ba.settle ((ba.read n).map Prod.snd)
  | .setPosition pos => ba.settle (ba.setPosition pos)
  | .clear => some ba.clear

/-- The consuming read of `n` bytes does not fault, and if it returns then it
delivers what the positional read at the cursor would, advances the position by
`n`, and leaves the cursor at the node of the new position. -/
def ReadAgrees (B : ℕ) (ba : ByteArray) (n : ℕ) : Prop :=
  ba.read n ≠ .error .nullDeref ∧ ∀ r ∈ (ba.read n).toOption,
    ba.readAt n ba.position = .ok r.1 ∧ r.2.position = ba.position + n ∧
    r.2.cur = if r.2.position = r.2.capacity then none else some (r.2.position / B)

/-- The read succeeds, begins inside a node and ends where that node ends. -/
def EndsNodeFromInside (B : ℕ) (ba : ByteArray) (n : ℕ) : Prop :=
  n ≤ ba.getReadSize ∧ 0 < ba.position % B ∧ ba.position % B + n = B

/-- `ReadAgrees`, asked of the reads among the calls. -/
def Agrees (B : ℕ) (ba : ByteArray) : Access → Prop
  | .read n _ => ReadAgrees B ba n
  | _ => True

/-- No read among the calls ends a node that it entered in the middle. -/
def KeepsNode (B : ℕ) (ba : ByteArray) : Access → Prop
  | .read n _ => ¬EndsNodeFromInside B ba n
  | _ => True

instance (B : ℕ) (ba : ByteArray) : (c : Access) → Decidable (Agrees B ba c)
  | .read _ _ => inferInstanceAs (Decidable (_ ∧ _))
  | .write _ => isTrue trivial
  | .setPosition _ => isTrue trivial
  | .clear => isTrue trivial

instance (B : ℕ) (ba : ByteArray) : (c : Access) → Decidable (KeepsNode B ba c)
  | .read _ _ => inferInstanceAs (Decidable (¬(_ ∧ _ ∧ _)))
  | .write _ => isTrue trivial
  | .setPosition _ => isTrue trivial
  | .clear => isTrue trivial

theorem Coherent.toRefines {B : ℕ} {ba : ByteArray} (h : Coherent B ba) :
    Refines B ba ⟨ba.position, ba.size, fun _ => none⟩ :=
  ⟨h, rfl, rfl, by simp [Stores]⟩

/-- The consuming read in a coherent state, with the node count of its loop. -/
theorem Coherent.read_eq {B : ℕ} {ba : ByteArray} (h : Coherent B ba) {n : ℕ} (hn : 0 < n)
    (hle : n ≤ ba.getReadSize) :
    ba.read n = .ok (((contents ba.nodes).drop ba.position).take n,
      { ba with
        position := ba.position + n
        cur := ba.nodeAt (ba.position / B +
          if 0 < ba.position % B ∧ ba.position % B + n = B then 0
          else (ba.position % B + n) / B) }) := by
  have hsize : ba.getReadSize = ba.size - ba.position := sizeSub_of_le h.position_le
  have hcap := h.size_le
  have hcur : ba.cur = some (ba.position / B) := by rw [h.cur, if_neg (by omega)]
  have hloop := consumeLoop_spec h.base_pos (h.uniform.drop (ba.position / B))
    (Nat.mod_lt ba.position h.base_pos) hn (h.room_ahead (by omega) (by omega))
  simp only [ByteArray.read, if_neg (Nat.not_lt.mpr hle), hcur, h.base, hloop,
    h.contents_drop_node]

theorem read_eq_throw {ba : ByteArray} {n : ℕ} (hlt : ba.getReadSize < n) :
    ba.read n = .error (.outOfRange "not enough data to read") := if_pos hlt

/-- In a coherent state the consuming read agrees with the positional one
exactly when it does not end a node that it entered in the middle. -/
theorem readAgrees_iff {B : ℕ} {ba : ByteArray} (h : Coherent B ba) {n : ℕ} (hn : 0 < n) :
    ReadAgrees B ba n ↔ ¬EndsNodeFromInside B ba n := by
  by_cases hle : n ≤ ba.getReadSize
  · have hsize : ba.getReadSize = ba.size - ba.position := sizeSub_of_le h.position_le
    have hcap := h.size_le
    have hread := h.read_eq hn hle
    have hat := h.readAt_eq hn (p := ba.position) (by omega)
    by_cases hstale : 0 < ba.position % B ∧ ba.position % B + n = B
    · rw [if_pos hstale, Nat.add_zero] at hread
      have hnode := h.nodeAt_div h.position_le_capacity
      have hnext : (ba.position + n) / B = ba.position / B + 1 := by
        rw [← div_add_mod_add_div h.base_pos, hstale.2, Nat.div_self h.base_pos]
      have hnot : ¬EndsNodeFromInside B ba n ↔ False := by
        simp only [iff_false, not_not]
        exact ⟨hle, hstale⟩
      rw [hnot, iff_false]
      rintro ⟨-, hagree⟩
      rw [hread] at hagree
      obtain ⟨-, -, hcur⟩ := hagree _ rfl
      -- the cursor still points to the node that the read has just left
      rw [hnode, if_neg (by omega)] at hcur
      dsimp only at hcur
      split_ifs at hcur
      rw [hnext] at hcur
      simp at hcur
    · rw [if_neg hstale, div_add_mod_add_div h.base_pos] at hread
      have hnot : ¬EndsNodeFromInside B ba n := fun hend => hstale hend.2
      refine iff_of_true ⟨by simp [hread], ?_⟩ hnot
      intro r hr
      rw [hread] at hr
      obtain rfl := Option.some.inj hr
      exact ⟨hat, rfl, h.nodeAt_div (by omega)⟩
  · have hthrow := read_eq_throw (Nat.lt_of_not_le hle)
    refine iff_of_true ?_ fun hend => hle hend.1
    simp [ReadAgrees, hthrow, Except.toOption]

theorem agrees_iff_keepsNode {B : ℕ} (ba : ByteArray) (c : Access) (h : Coherent B ba) :
    Agrees B ba c ↔ KeepsNode B ba c := by
  cases c with
  | read n hn => exact readAgrees_iff h hn
  | write | setPosition | clear => exact Iff.rfl

/-- Whatever holds of the array before a call and of what the call returns holds of what the
caller has after it. -/
theorem settle_keeps {I : ByteArray → Prop} {ba ba' : ByteArray} {r : Except Fault ByteArray}
    (h : I ba) (hret : ∀ bb, r = .ok bb → I bb) (hs : ba.settle r = some ba') : I ba' := by
  cases r with
  | ok bb => exact Option.some.inj hs ▸ hret bb rfl
  | error e =>
      cases e with
      | outOfRange what => exact Option.some.inj hs ▸ h
      | nullDeref => cases hs

theorem Coherent.of_write {B : ℕ} {ba bb : ByteArray} (h : Coherent B ba) {buf : List UInt8}
    (hrun : ba.write buf = .ok bb) : Coherent B bb := by
  obtain ⟨bb', hrun', hr⟩ := write_refines h.toRefines buf
  obtain rfl := Except.ok.inj (hrun.symm.trans hrun')
  exact hr.coherent

theorem Coherent.of_setPosition {B : ℕ} {ba bb : ByteArray} (h : Coherent B ba) {p : ℕ}
    (hrun : ba.setPosition p = .ok bb) : Coherent B bb := by
  by_cases hp : p ≤ ba.capacity
  · obtain ⟨bb', hrun', hr⟩ := setPosition_refines h.toRefines hp
    obtain rfl := Except.ok.inj (hrun.symm.trans hrun')
    exact hr.coherent
  · have hthrow : ba.setPosition p = .error (.outOfRange "setPostion out of range") :=
      if_pos (Nat.lt_of_not_le hp)
    rw [hthrow] at hrun
    cases hrun

theorem access_coherent {B : ℕ} (ba : ByteArray) (c : Access) (ba' : ByteArray)
    (h : Coherent B ba) (hkeep : KeepsNode B ba c) (hstep : ba.access c = some ba') :
    Coherent B ba' := by
  cases c with
  | write buf => exact settle_keeps h (fun bb => h.of_write) hstep
  | clear =>
      obtain rfl := Option.some.inj hstep
      exact (clear_refines h.toRefines).coherent
  | setPosition p => exact settle_keeps h (fun bb => h.of_setPosition) hstep
  | read n hn =>
      by_cases hle : n ≤ ba.getReadSize
      · have hread := h.read_eq hn hle
        have hcur := ((readAgrees_iff h hn).mpr hkeep).2 _ (by rw [hread]; rfl)
        have hsize : ba.getReadSize = ba.size - ba.position := sizeSub_of_le h.position_le
        have hpos := h.position_le
        simp only [ByteArray.access, hread, Except.map, ByteArray.settle,
          Option.some.injEq] at hstep
        subst hstep
        exact ⟨h.base_pos, h.base, h.root, h.uniform, h.capacity, by dsimp only; omega,
          h.size_le, hcur.2.2⟩
      · simp only [ByteArray.access, read_eq_throw (Nat.lt_of_not_le hle), Except.map,
          ByteArray.settle, Option.some.injEq] at hstep
        exact hstep ▸ h

/-- When the two reads agree. For every base size and every sequence of
writes, consuming reads, seeks and clears: every consuming read of the run agrees
with the positional read and leaves the cursor right, if and only if none of them
ends a node that it entered in the middle. -/
theorem consuming_reads_agree_iff (B : ℕ) (hB : 1 ≤ B) (calls : List Access) :
    StepSystem.AllSteps ByteArray.access (Agrees B) (ByteArray.new B) calls ↔
      StepSystem.AllSteps ByteArray.access (KeepsNode B) (ByteArray.new B) calls :=
  StepSystem.allSteps_iff (Coherent B) agrees_iff_keepsNode access_coherent (new_coherent hB) calls

/-- Base size two, reads that stay clear of the bad ending: a whole node at once. -/
theorem consuming_reads_agree_whole_nodes :
    StepSystem.AllSteps ByteArray.access (Agrees 2) (ByteArray.new 2)
      [.write [1, 2, 3, 4], .setPosition 0, .read 2 (by decide), .read 2 (by decide)] :=
  (consuming_reads_agree_iff 2 (by decide) _).mpr (by decide)

/-- Base size two: one byte read from the middle of the first node leaves the
cursor on that node, and the next read returns byte 0 again instead of byte 2. -/
theorem consuming_read_goes_stale :
    ¬StepSystem.AllSteps ByteArray.access (Agrees 2) (ByteArray.new 2)
        [.write [1, 2, 3, 4], .setPosition 1, .read 1 (by decide), .read 1 (by decide)] ∧
    ∃ ba, StepSystem.run ByteArray.access (ByteArray.new 2)
        [.write [1, 2, 3, 4], .setPosition 1, .read 1 (by decide)] = some ba ∧
      ba.position = 2 ∧ ba.cur = some 0 ∧
      (ba.read 1).map Prod.fst = .ok [some 1] ∧ ba.readAt 1 2 = .ok [some 3] := by
  refine ⟨by decide, ⟨2, 2, 4, 4, [⟨[some 1, some 2]⟩, ⟨[some 3, some 4]⟩], some 0⟩, ?_⟩
  decide

end Xzmjx.ByteArrayModel
