import Mathlib.Data.UInt
import Xzmjx.BitmapArray
import Xzmjx.FallibleCalls

/-!
# Bloom filter

Both operations recompute one sequence of probes from the hash of the key, each a remainder
by the size of the filter. A remainder by zero is a fault of the program, and so is an
exception of the bitmap under the filter.
-/
namespace Xzmjx
open ByteOrder ByteWords BaseType FallibleCalls

/-- `m_bitsPerKey`, `m_hashCnt`, `m_size` and `m_data`. -/
structure BloomFilter (t : BaseType) where
  bitsPerKey : UInt32
  hashCnt : ℕ
  size : UInt32
  data : Bitmap t
  hashCnt_pos : 1 ≤ hashCnt
  hashCnt_le : hashCnt ≤ 30
  data_size : data.size = size.toNat

namespace BloomFilter

inductive Fault
  | divisionByZero
  | thrown (what : Bitmap.Exception)
  deriving DecidableEq, Repr

/-- The bytes of a `std::string`. -/
abbrev Key := List UInt8

variable {t : BaseType}

/-- The number of hash functions. The product of doubles that it truncates is at least 30
where the clamp hides it, and is not a whole number below that. -/
def clampedHashCnt (bitsPerKey : UInt32) : ℕ :=
  let hashCnt := bitsPerKey.toNat * 69 / 100
  let hashCnt := if hashCnt < 1 then 1 else hashCnt
  if 30 < hashCnt then 30 else hashCnt

theorem clampedHashCnt_pos (m : UInt32) : 1 ≤ clampedHashCnt m := by
  unfold clampedHashCnt
  dsimp only
  split_ifs <;> omega

theorem clampedHashCnt_le (m : UInt32) : clampedHashCnt m ≤ 30 := by
  unfold clampedHashCnt
  dsimp only
  split_ifs <;> omega

/-- `BloomFilter(bitsPerKey, n)`. -/
def new (t : BaseType) (bitsPerKey n : Int32) : BloomFilter t where
  bitsPerKey := bitsPerKey.toUInt32
  hashCnt := clampedHashCnt bitsPerKey.toUInt32
  size := n.toUInt32 * bitsPerKey.toUInt32
  data := Bitmap.new t (n.toUInt32 * bitsPerKey.toUInt32).toNat 0 (UInt32.toNat_lt _)
  hashCnt_pos := clampedHashCnt_pos _
  hashCnt_le := clampedHashCnt_le _
  data_size := rfl

/-- `delta`. -/
def delta (h : UInt32) : UInt32 := (h >>> 17) ||| (h <<< 15)

/-- `h % m_size`. -/
def bitpos (h size : UInt32) : Except Fault UInt32 :=
  if size = 0 then .error .divisionByZero else .ok (h % size)

/-- A call of the bitmap. -/
def call {α : Type} : Except Bitmap.Exception α → Except Fault α := Except.mapError .thrown

/-- The loop of `add`, with `j` rounds left. -/
def addLoop (e : Endian) (size delta : UInt32) : ℕ → UInt32 → Bitmap t → Except Fault (Bitmap t)
  | 0, _, data => .ok data
  | j + 1, h, data =>
      bitpos h size >>= fun pos =>
      call (data.set e pos.toNat true) >>= fun data =>
      addLoop e size delta j (h + delta) data

/-- The loop of `mayMatch`, with `j` rounds left. -/
def matchLoop (e : Endian) (size delta : UInt32) (data : Bitmap t) :
    ℕ → UInt32 → Except Fault Bool
  | 0, _ => .ok true
  | j + 1, h =>
      bitpos h size >>= fun pos =>
      call (data.get e pos.toNat) >>= fun found =>
      if found then .ok false else matchLoop e size delta data j (h + delta)

theorem size_of_addLoop {e : Endian} {size delta : UInt32} {j : ℕ} {h : UInt32}
    {data data' : Bitmap t} (heq : addLoop e size delta j h data = .ok data') :
    data'.size = data.size := by
  induction j generalizing h data with
  | zero => rw [← Except.ok.inj heq]
  | succ j ih =>
      obtain ⟨pos, -, hset⟩ := bind_eq_ok heq
      obtain ⟨mid, hmid, hrest⟩ := bind_eq_ok hset
      rw [ih hrest, Bitmap.size_of_set (mapError_eq_ok.mp hmid)]

def add (e : Endian) (hash : Key → UInt32) (f : BloomFilter t) (key : Key) :
    Except Fault (BloomFilter t) :=
  match heq : addLoop e f.size (delta (hash key)) f.hashCnt (hash key) f.data with
  | .error fault => .error fault
  | .ok data => .ok { f with data := data, data_size := (size_of_addLoop heq).trans f.data_size }

def mayMatch (e : Endian) (hash : Key → UInt32) (f : BloomFilter t) (key : Key) :
    Except Fault Bool :=
  matchLoop e f.size (delta (hash key)) f.data f.hashCnt (hash key)

/-- A sequence of calls of `add`. -/
def addAll (e : Endian) (hash : Key → UInt32) (f : BloomFilter t) :
    List Key → Except Fault (BloomFilter t)
  | [] => .ok f
  | key :: keys => add e hash f key >>= fun f => addAll e hash f keys

/-! ### Marks and probes -/

/-- The positions that the loops visit from the round with value `h` on. -/
def positions (size delta : UInt32) : ℕ → UInt32 → List ℕ
  | 0, _ => []
  | j + 1, h => (h % size).toNat :: positions size delta j (h + delta)

/-- The positions of a key. -/
def probes (hash : Key → UInt32) (f : BloomFilter t) (key : Key) : List ℕ :=
  positions f.size (delta (hash key)) f.hashCnt (hash key)

/-- The positions that are set, which is what a filter knows of its keys. -/
def marks (e : Endian) (f : BloomFilter t) : Set ℕ := {i | f.data.bit e i = true}

section Loops
variable {e : Endian} {size delta : UInt32} {data : Bitmap t}

theorem bitpos_eq (hsize : size ≠ 0) (h : UInt32) : bitpos h size = .ok (h % size) := if_neg hsize

theorem bitpos_zero (h : UInt32) : bitpos h 0 = .error .divisionByZero := if_pos rfl

theorem position_lt (hsize : size ≠ 0) (h : UInt32) : (h % size).toNat < size.toNat := by
  rw [UInt32.toNat_mod]
  exact Nat.mod_lt _ (Nat.pos_of_ne_zero fun hzero => hsize (UInt32.toNat_inj.mp hzero))

theorem addLoop_spec (e : Endian) (delta : UInt32) (hsize : size ≠ 0)
    (hdata : data.size = size.toNat) (j : ℕ) (h : UInt32) :
    ∃ data', addLoop e size delta j h data = .ok data' ∧
      ∀ i, data'.bit e i = true ↔ data.bit e i = true ∨ i ∈ positions size delta j h := by
  induction j generalizing h data with
  | zero => exact ⟨data, rfl, fun i => by simp [positions]⟩
  | succ j ih =>
      have hstored := Bitmap.stored (hdata ▸ position_lt hsize h)
      obtain ⟨mid, hset, hmid, -, hbit⟩ := Bitmap.set_spec (e := e) hstored true
      obtain ⟨data', hloop, hbits⟩ := ih (hmid.trans hdata) (h + delta)
      refine ⟨data', ?_, fun i => ?_⟩
      · rw [addLoop, bitpos_eq hsize, ok_bind, hset]
        exact hloop
      · rw [hbits, hbit, positions, List.mem_cons]
        by_cases hi : i = (h % size).toNat
        · rw [if_pos hi]
          exact ⟨fun _ => Or.inr (Or.inl hi), fun _ => Or.inl rfl⟩
        · rw [if_neg hi, or_iff_right hi]

theorem matchLoop_eq (hsize : size ≠ 0) (hdata : data.size = size.toNat) (j : ℕ) (h : UInt32) :
    matchLoop e size delta data j h =
      .ok ((positions size delta j h).all fun i => !data.bit e i) := by
  induction j generalizing h with
  | zero => rfl
  | succ j ih =>
      have hstored := Bitmap.stored (hdata ▸ position_lt hsize h)
      rw [matchLoop, bitpos_eq hsize, ok_bind, Bitmap.get_eq hstored, positions, List.all_cons]
      show (if data.bit e (h % size).toNat = true then _ else _) = _
      cases hbit : data.bit e (h % size).toNat with
      | true => rfl
      | false => exact ih (h + delta)

end Loops

/-! ### Filters -/

section Filters
variable {e : Endian} {hash : Key → UInt32} {f f' : BloomFilter t}

/-- What `add` leaves alone. -/
structure SameShape (f f' : BloomFilter t) : Prop where
  hashCnt_eq : f'.hashCnt = f.hashCnt
  size_eq : f'.size = f.size

theorem SameShape.probes_eq (h : SameShape f f') (key : Key) :
    probes hash f' key = probes hash f key := by
  rw [probes, probes, h.hashCnt_eq, h.size_eq]

theorem probes_ne_nil (hash : Key → UInt32) (f : BloomFilter t) (key : Key) :
    probes hash f key ≠ [] := by
  obtain ⟨j, hj⟩ := Nat.exists_eq_add_of_le f.hashCnt_pos
  rw [probes, hj, Nat.add_comm 1 j, positions]
  exact List.cons_ne_nil _ _

theorem add_spec (e : Endian) (hash : Key → UInt32) (hsize : f.size ≠ 0) (key : Key) :
    ∃ f', add e hash f key = .ok f' ∧ SameShape f f' ∧
      marks e f' = marks e f ∪ {i | i ∈ probes hash f key} := by
  obtain ⟨data', hloop, hbits⟩ := addLoop_spec e (delta (hash key)) hsize
    f.data_size f.hashCnt (hash key)
  unfold add
  split
  · next hfault => rw [hloop] at hfault; cases hfault
  · next data heq =>
      cases hloop.symm.trans heq
      refine ⟨_, rfl, ⟨rfl, rfl⟩, ?_⟩
      ext i
      exact hbits i

/-- `mayMatch` accepts a key none of whose positions is set. -/
theorem mayMatch_eq (hsize : f.size ≠ 0) (key : Key) :
    mayMatch e hash f key = .ok ((probes hash f key).all fun i => !f.data.bit e i) :=
  matchLoop_eq hsize f.data_size f.hashCnt (hash key)

theorem addAll_spec (e : Endian) (hash : Key → UInt32) (hsize : f.size ≠ 0) (keys : List Key) :
    ∃ f', addAll e hash f keys = .ok f' ∧ SameShape f f' ∧
      marks e f' = marks e f ∪ {i | ∃ key ∈ keys, i ∈ probes hash f key} := by
  induction keys generalizing f with
  | nil => exact ⟨f, rfl, ⟨rfl, rfl⟩, by simp⟩
  | cons key keys ih =>
      obtain ⟨mid, hadd, hmid, hmarks⟩ := add_spec e hash hsize key
      obtain ⟨f', hall, hshape, hmarks'⟩ := ih (hmid.size_eq ▸ hsize)
      refine ⟨f', ?_, ⟨?_, ?_⟩, ?_⟩
      · rw [addAll, hadd]
        exact hall
      · rw [hshape.hashCnt_eq, hmid.hashCnt_eq]
      · rw [hshape.size_eq, hmid.size_eq]
      · ext i
        simp [hmarks', hmarks, hmid.probes_eq, or_assoc]

end Filters

/-! ### A new filter -/

section New
variable {e : Endian} {hash : Key → UInt32} {bitsPerKey n : Int32}

theorem toNat_toUInt32 (x : Int32) : (x.toUInt32.toNat : ℤ) = x.toInt % 2 ^ 32 := by
  have hlt : (x.toBitVec.toNat : ℤ) < 2 ^ 32 := by exact_mod_cast x.toBitVec.isLt
  have hmod : (x.toBitVec.toNat : ℤ).bmod (2 ^ 32) % (2 ^ 32 : ℕ) =
      x.toBitVec.toNat % (2 ^ 32 : ℕ) := Int.bmod_emod
  rw [← BitVec.toInt_eq_toNat_bmod] at hmod
  exact (hmod.trans (Int.emod_eq_of_lt (Int.natCast_nonneg _) hlt)).symm

/-- The size is the product cut to 32 bits. -/
theorem toNat_size (t : BaseType) (bitsPerKey n : Int32) :
    ((new t bitsPerKey n).size.toNat : ℤ) = n.toInt * bitsPerKey.toInt % 2 ^ 32 := by
  show ((n.toUInt32 * bitsPerKey.toUInt32).toNat : ℤ) = _
  rw [← Int32.toUInt32_mul, toNat_toUInt32, Int32.toInt_mul]
  exact Int.bmod_emod

theorem size_ne_zero_iff :
    (new t bitsPerKey n).size ≠ 0 ↔ n.toInt * bitsPerKey.toInt % 2 ^ 32 ≠ 0 := by
  rw [← toNat_size t, Ne, ← UInt32.toNat_inj]
  exact not_congr Int.natCast_eq_zero.symm

theorem size_ne_zero (hpos : 0 < n.toInt * bitsPerKey.toInt)
    (hlt : n.toInt * bitsPerKey.toInt < 2 ^ 32) : (new t bitsPerKey n).size ≠ 0 := by
  rw [size_ne_zero_iff, Int.emod_eq_of_lt hpos.le hlt]
  exact hpos.ne'

theorem ofLittle_replicate (k : ℕ) : ofLittle (List.replicate k 0) = 0 := by
  induction k with
  | zero => rfl
  | succ k ih =>
      rw [List.replicate_succ, ofLittle, ih]
      rfl

theorem marks_new (e : Endian) (bitsPerKey n : Int32) : marks e (new t bitsPerKey n) = ∅ := by
  ext i
  have hword : (new t bitsPerKey n).data.word e (i / t.VALUE_SIZE) = 0 := by
    show loadAt e t.sizeof (List.replicate _ 0) _ = 0
    rw [loadAt, List.drop_replicate, List.take_replicate]
    cases e with
    | little => exact ofLittle_replicate _
    | big =>
        rw [load, List.reverse_replicate]
        exact ofLittle_replicate _
  show (Nat.testBit ((new t bitsPerKey n).data.word e (i / t.VALUE_SIZE)) _ = true) ↔ False
  rw [hword, Nat.zero_testBit]
  exact iff_of_false Bool.false_ne_true id

/-- What a filter holds after a sequence of calls. -/
theorem history_spec (e : Endian) (hash : Key → UInt32)
    (hsize : (new t bitsPerKey n).size ≠ 0) (keys : List Key) :
    ∃ f, addAll e hash (new t bitsPerKey n) keys = .ok f ∧ f.size ≠ 0 ∧
      marks e f = {i | ∃ key ∈ keys, i ∈ probes hash f key} := by
  obtain ⟨f, hall, hshape, hmarks⟩ := addAll_spec e hash hsize keys
  refine ⟨f, hall, hshape.size_eq ▸ hsize, ?_⟩
  ext i
  simp [hmarks, marks_new, hshape.probes_eq]

end New

/-! ### Membership -/

section Membership
variable {e : Endian} {hash : Key → UInt32} {f : BloomFilter t} {keys : List Key}

/-- The test of the loop is the wrong way round: a key is refused because its positions are
set. -/
theorem mayMatch_of_added (hsize : f.size ≠ 0)
    (hmarks : marks e f = {i | ∃ key ∈ keys, i ∈ probes hash f key}) {key : Key}
    (hkey : key ∈ keys) : mayMatch e hash f key = .ok false := by
  obtain ⟨i, hi⟩ := List.exists_mem_of_ne_nil _ (probes_ne_nil hash f key)
  have hset : i ∈ marks e f := by
    rw [hmarks]
    exact ⟨key, hkey, hi⟩
  have hset : f.data.bit e i = true := hset
  rw [mayMatch_eq hsize, List.all_eq_false.mpr]
  exact ⟨i, hi, by rw [hset]; exact Bool.false_ne_true⟩

theorem mayMatch_of_no_marks (hsize : f.size ≠ 0) (hmarks : marks e f = ∅) (key : Key) :
    mayMatch e hash f key = .ok true := by
  rw [mayMatch_eq hsize, List.all_eq_true.mpr]
  intro i _
  have hclear : i ∉ marks e f := by
    rw [hmarks]
    exact Set.notMem_empty i
  show (!f.data.bit e i) = true
  rw [Bool.not_eq_true', ← Bool.not_eq_true]
  exact hclear

/-- What the answers of a filter that received `keys` are for. -/
def Sound (e : Endian) (hash : Key → UInt32) (keys : List Key) (f : BloomFilter t) : Prop :=
  (∀ key ∈ keys, mayMatch e hash f key = .ok true) ∧
    (keys = [] → ∀ key, mayMatch e hash f key = .ok false)

/-- A filter denies every key that it received, and accepts every key where it received
none. -/
theorem never_sound (e : Endian) (hash : Key → UInt32) (bitsPerKey n : Int32)
    (hpos : 0 < n.toInt * bitsPerKey.toInt) (hlt : n.toInt * bitsPerKey.toInt < 2 ^ 32)
    (keys : List Key) :
    ∃ f, addAll e hash (new t bitsPerKey n) keys = .ok f ∧ ¬Sound e hash keys f := by
  obtain ⟨f, hall, hsize, hmarks⟩ := history_spec e hash
    (size_ne_zero (t := t) hpos hlt) keys
  refine ⟨f, hall, fun hsound => ?_⟩
  cases keys with
  | nil =>
      have hnone : marks e f = ∅ := by
        rw [hmarks]
        ext i
        simp
      have hfalse := hsound.2 rfl []
      rw [mayMatch_of_no_marks hsize hnone] at hfalse
      cases hfalse
  | cons key keys =>
      have htrue := hsound.1 key List.mem_cons_self
      rw [mayMatch_of_added hsize hmarks List.mem_cons_self] at htrue
      cases htrue

/-- Ten bits for one key, which is denied after it was added. -/
theorem added_key_denied :
    (addAll .little (fun _ => 7) (new .uint16 10 1) [[97]] >>= fun f =>
      mayMatch .little (fun _ => 7) f [97]) = .ok false := rfl

theorem never_sound_ten_bits :
    ∃ f, addAll .little (fun _ => 7) (new .uint16 10 1) [[97]] = .ok f ∧
      ¬Sound .little (fun _ => 7) [[97]] f :=
  never_sound .little (fun _ => 7) 10 1 (by decide) (by decide) [[97]]

end Membership

/-! ### Faults -/

section Faults
variable {e : Endian} {hash : Key → UInt32} {f : BloomFilter t}

theorem add_zero (hsize : f.size = 0) (key : Key) :
    add e hash f key = .error .divisionByZero := by
  have hloop : addLoop e f.size (delta (hash key)) f.hashCnt (hash key) f.data =
      .error .divisionByZero := by
    obtain ⟨j, hj⟩ := Nat.exists_eq_add_of_le f.hashCnt_pos
    rw [hj, Nat.add_comm 1 j, hsize, addLoop, bitpos_zero]
    rfl
  unfold add
  split
  · next fault hfault => rw [Except.error.inj (hfault.symm.trans hloop)]
  · next data hdata => cases hloop.symm.trans hdata

/-- A filter that received `keys` takes one more key and answers for it, and every hash value
leads to a word of the bitmap. -/
def Safe (e : Endian) (hash : Key → UInt32) (keys : List Key) (key : Key) (f₀ : BloomFilter t) :
    Prop :=
  ∃ f, addAll e hash f₀ keys = .ok f ∧ (∃ f', add e hash f key = .ok f') ∧
    (∃ answer, mayMatch e hash f key = .ok answer) ∧
    ∀ h : UInt32, (h % f.size).toNat / t.VALUE_SIZE < f.data.dataSize

/-- The arithmetic is safe exactly where the product is no multiple of `2 ^ 32`. -/
theorem safe_iff (e : Endian) (hash : Key → UInt32) (keys : List Key) (key : Key)
    (bitsPerKey n : Int32) :
    Safe e hash keys key (new t bitsPerKey n) ↔ n.toInt * bitsPerKey.toInt % 2 ^ 32 ≠ 0 := by
  rw [← size_ne_zero_iff (t := t)]
  constructor
  · rintro ⟨f, hall, ⟨f', hadd⟩, -⟩ hzero
    cases keys with
    | nil =>
        rw [← Except.ok.inj hall, add_zero hzero] at hadd
        cases hadd
    | cons first keys =>
        rw [addAll, add_zero hzero] at hall
        cases hall
  · intro hsize
    obtain ⟨f, hall, hshape, -⟩ := addAll_spec e hash hsize keys
    have hf : f.size ≠ 0 := hshape.size_eq ▸ hsize
    obtain ⟨f', hadd, -⟩ := add_spec e hash hf key
    refine ⟨f, hall, ⟨f', hadd⟩, ⟨_, mayMatch_eq hf key⟩, fun h => ?_⟩
    have hstored := Bitmap.stored (b := f.data) (f.data_size ▸ position_lt hf h)
    exact not_le.mp (Bitmap.accepted_iff.mpr hstored)

/-- A product of `2 ^ 32` leaves a size of zero. -/
theorem product_of_two_powers :
    (new .uint16 65536 65536).size = 0 ∧
      add .little (fun _ => 7) (new .uint16 65536 65536) [97] = .error .divisionByZero ∧
      mayMatch .little (fun _ => 7) (new .uint16 65536 65536) [97] = .error .divisionByZero :=
  ⟨rfl, rfl, rfl⟩

end Faults

end BloomFilter

end Xzmjx
