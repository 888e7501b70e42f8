import Xzmjx.AddressModel
import Xzmjx.PrefixMask
import Xzmjx.WebSocketFrames

/-!
# Subnets

The functions of both kinds of address against the mask of `p` leading ones. `CreateMask` has
the complement of that mask, which it can compute for some lengths only.
-/
namespace Xzmjx.AddressModel
open ByteOrder ByteWords PrefixMask FallibleCalls
open StreamModel (toInt_of_lt)
open WebSocketModel (endianCastOnLittle endianCastOnLittle_load endianCastOnLittle_lt)

/-! ### CreateMask -/

section Masks
variable {w : ℕ} {bits : UInt32}

theorem amount_eq (hle : bits.toNat ≤ w) (hw : w ≤ 32) :
    (w + (2 ^ 64 - bits.toNat)) % 2 ^ 64 = w - bits.toNat := by
  have hlt := bits.toNat_lt
  omega

theorem shiftedOne_eq {amount : ℕ} (h : amount ≤ 30) :
    shiftedOne amount = .ok ((2 ^ amount : ℕ) : ℤ) := by
  have hlt : 2 ^ amount ≤ 2 ^ 30 := Nat.pow_le_pow_right (by decide) h
  rw [shiftedOne, if_neg (by omega), toInt_of_lt (by omega)]

theorem minusOne_eq {v : ℕ} (h : 0 < v) : minusOne v = .ok ((v - 1 : ℕ) : ℤ) := by
  rw [minusOne, if_neg (by omega), Int.ofNat_sub h]
  rfl

/-- Two bits of distance keep the shift and the subtraction within `int`. -/
theorem createMask_eq (hle : bits.toNat ≤ w) (hw : w ≤ 32) (hroom : w ≤ bits.toNat + 30) :
    createMask w bits = .ok (~~~leadingOnes w bits.toNat) := by
  rw [createMask, amount_eq hle hw, shiftedOne_eq (by omega), ok_bind,
    minusOne_eq (Nat.two_pow_pos _), ok_bind, BitVec.ofInt_natCast]
  congr 1
  apply BitVec.eq_of_toNat_eq
  have hlt := (~~~leadingOnes w bits.toNat).isLt
  rw [toNat_not_leadingOnes] at hlt ⊢
  rw [BitVec.toNat_ofNat, Nat.mod_eq_of_lt hlt]

theorem createMask_one : createMask 32 1 = .error .signedOverflow := by
  decide

theorem createMask_zero : createMask 32 0 = .error .shiftTooWide := by
  decide

end Masks

/-! ### Byte order -/

/-- Changing the byte order commutes with what acts on every byte by itself. -/
theorem endianCastOnLittle_bytewise {f : ℕ → ℕ → ℕ → ℕ} {g : UInt8 → UInt8 → UInt8}
    (h : Bytewise f g) (native : Endian) {n x y : ℕ} (hx : x < 256 ^ n) (hy : y < 256 ^ n) :
    endianCastOnLittle native n (f n x y) =
      f n (endianCastOnLittle native n x) (endianCastOnLittle native n y) := by
  have hlx : (store native n x).length = n := length_store native n x
  have hly : (store native n y).length = n := length_store native n y
  have hcast : ∀ bs : List UInt8, bs.length = n →
      endianCastOnLittle native n (load native bs) = load .big bs := by
    intro bs hbs
    have hload := endianCastOnLittle_load native bs
    rwa [hbs] at hload
  have hnative := load_zipWith (e := native) h (hlx.trans hly.symm)
  have hbig := load_zipWith (e := .big) h (hlx.trans hly.symm)
  rw [hlx] at hnative hbig
  rw [← hcast _ hlx, ← hcast _ hly, load_store native hx, load_store native hy] at hbig
  rw [load_store native hx, load_store native hy] at hnative
  rw [hnative, hcast _ (by rw [List.length_zipWith, hlx, hly, Nat.min_self])]
  exact hbig.symm

section Casts
variable {native : Endian} {x y : UInt32}

theorem lt_bytes (x : UInt32) : x.toNat < 256 ^ 4 := x.toNat_lt

theorem endianCastOnLittle_self {n v : ℕ} (h : v < 256 ^ n) :
    endianCastOnLittle native n (endianCastOnLittle native n v) = v := by
  unfold endianCastOnLittle
  split_ifs
  · exact swap_swap h
  · rfl

theorem toNat_endianCast32 (x : UInt32) :
    (endianCast32 native x).toNat = endianCastOnLittle native 4 x.toNat := by
  rw [endianCast32, UInt32.toNat_ofNat']
  exact Nat.mod_eq_of_lt (endianCastOnLittle_lt native (lt_bytes x))

theorem endianCast32_self (x : UInt32) : endianCast32 native (endianCast32 native x) = x := by
  apply UInt32.toNat_inj.mp
  rw [toNat_endianCast32, toNat_endianCast32, endianCastOnLittle_self (lt_bytes x)]

theorem endianCast32_and (x y : UInt32) :
    endianCast32 native (x &&& y) = endianCast32 native x &&& endianCast32 native y := by
  apply UInt32.toNat_inj.mp
  rw [UInt32.toNat_and, toNat_endianCast32, toNat_endianCast32, toNat_endianCast32,
    UInt32.toNat_and]
  exact endianCastOnLittle_bytewise bytewise_and native (lt_bytes x) (lt_bytes y)

theorem endianCast32_or (x y : UInt32) :
    endianCast32 native (x ||| y) = endianCast32 native x ||| endianCast32 native y := by
  apply UInt32.toNat_inj.mp
  rw [UInt32.toNat_or, toNat_endianCast32, toNat_endianCast32, toNat_endianCast32,
    UInt32.toNat_or]
  exact endianCastOnLittle_bytewise bytewise_or native (lt_bytes x) (lt_bytes y)

theorem toNat_not_eq (x : UInt32) : (~~~x).toNat = complement 4 x.toNat := by
  rw [UInt32.toNat_not, complement, Nat.sub_sub, Nat.add_comm]
  rfl

theorem endianCast32_not (x : UInt32) :
    endianCast32 native (~~~x) = ~~~endianCast32 native x := by
  apply UInt32.toNat_inj.mp
  rw [toNat_not_eq, toNat_endianCast32, toNat_endianCast32, toNat_not_eq]
  exact endianCastOnLittle_bytewise bytewise_complement native (lt_bytes x) (lt_bytes x)

end Casts

/-! ### IPv4 -/

namespace IPv4Address

/-- What the three functions are for, at one length of the prefix: the addresses in host order,
with the port and the family of the first two, and no fault. -/
structure SubnetsRight (native : Endian) (a : IPv4Address) (prefix_len : UInt32) : Prop where
  network : ∃ r, a.networkAddress native prefix_len = .ok (some r) ∧
    r.host native = a.host native &&& leadingOnes 32 prefix_len.toNat ∧
    r.sin_port = a.sin_port ∧ r.sin_family = a.sin_family
  broadcast : ∃ r, a.broadcastAddress native prefix_len = .ok (some r) ∧
    r.host native = a.host native ||| ~~~leadingOnes 32 prefix_len.toNat ∧
    r.sin_port = a.sin_port ∧ r.sin_family = a.sin_family
  mask : ∃ r, subnetMask native prefix_len = .ok (some r) ∧
    r.host native = leadingOnes 32 prefix_len.toNat

variable {native : Endian} {a : IPv4Address} {prefix_len : UInt32}

theorem host_and_not (a : IPv4Address) (m : BitVec 32) :
    host native { a with s_addr := a.s_addr &&& ~~~endianCast32 native (.ofBitVec m) } =
      a.host native &&& ~~~m := by
  unfold host
  dsimp only
  rw [endianCast32_and, endianCast32_not, endianCast32_self, UInt32.toBitVec_and,
    UInt32.toBitVec_not, UInt32.toBitVec_ofBitVec]

theorem host_or (a : IPv4Address) (m : BitVec 32) :
    host native { a with s_addr := a.s_addr ||| endianCast32 native (.ofBitVec m) } =
      a.host native ||| m := by
  unfold host
  dsimp only
  rw [endianCast32_or, endianCast32_self, UInt32.toBitVec_or, UInt32.toBitVec_ofBitVec]

theorem host_not (a : IPv4Address) (m : BitVec 32) :
    host native { a with s_addr := ~~~endianCast32 native (.ofBitVec m) } = ~~~m := by
  unfold host
  dsimp only
  rw [endianCast32_not, endianCast32_self, UInt32.toBitVec_not, UInt32.toBitVec_ofBitVec]

theorem subnetsRight_of_mask (hle : prefix_len.toNat ≤ 32)
    (hmask : createMask 32 prefix_len = .ok (~~~leadingOnes 32 prefix_len.toNat)) :
    SubnetsRight native a prefix_len := by
  have hguard : ¬32 < prefix_len := by
    rw [UInt32.lt_iff_toNat_lt]
    exact not_lt.mpr hle
  have hnetwork := @host_and_not native a (~~~leadingOnes 32 prefix_len.toNat)
  have hbroadcast := @host_or native a (~~~leadingOnes 32 prefix_len.toNat)
  have hsubnet := @host_not native { zeroed with sin_family := AF_INET }
    (~~~leadingOnes 32 prefix_len.toNat)
  rw [BitVec.not_not] at hnetwork hsubnet
  constructor
  · refine ⟨_, ?_, hnetwork, rfl, rfl⟩
    rw [networkAddress, if_neg hguard, hmask, ok_bind]
  · refine ⟨_, ?_, hbroadcast, rfl, rfl⟩
    rw [broadcastAddress, if_neg hguard, hmask, ok_bind]
  · refine ⟨_, ?_, hsubnet⟩
    rw [subnetMask, hmask, ok_bind]

/-- The subnets are right from the second bit of the prefix on: the mask of a prefix of length
one overflows, and that of the empty prefix shifts by the width. -/
theorem ipv4_subnetsRight_iff (native : Endian) (a : IPv4Address) (prefix_len : UInt32)
    (hle : prefix_len.toNat ≤ 32) : SubnetsRight native a prefix_len ↔ 2 ≤ prefix_len.toNat := by
  constructor
  · rintro ⟨-, -, r, hr, -⟩
    by_contra hsmall
    have hcases : prefix_len = 0 ∨ prefix_len = 1 := by
      rw [← UInt32.toNat_inj, ← UInt32.toNat_inj]
      have hbound : prefix_len.toNat < 2 := not_le.mp hsmall
      show prefix_len.toNat = 0 ∨ prefix_len.toNat = 1
      omega
    rcases hcases with rfl | rfl
    · rw [subnetMask, createMask_zero] at hr
      cases hr
    · rw [subnetMask, createMask_one] at hr
      cases hr
  · intro hlarge
    exact subnetsRight_of_mask hle (createMask_eq hle le_rfl (by omega))

/-- The network of the whole address space. -/
theorem empty_prefix :
    zeroed.networkAddress .little 0 = .error .shiftTooWide ∧
      zeroed.networkAddress .little 1 = .error .signedOverflow ∧
      ¬SubnetsRight .little zeroed 0 := by
  refine ⟨rfl, rfl, ?_⟩
  rintro ⟨⟨r, hr, -⟩, -, -⟩
  cases hr

theorem ipv4_subnetsRight_iff_sixteen :
    SubnetsRight .little zeroed 16 ↔ 2 ≤ (16 : UInt32).toNat :=
  ipv4_subnetsRight_iff .little zeroed 16 (by decide)

end IPv4Address

/-! ### IPv6 -/

section Bytes
variable {bytes : Vector UInt8 16} {v : UInt8}

theorem modifyAt_eq {i : ℕ} (h : i < 16) (f : UInt8 → UInt8) :
    modifyAt bytes i f = .ok (bytes.set i (f bytes[i])) := dif_pos h

theorem modifyAt_behind {i : ℕ} (h : 16 ≤ i) (f : UInt8 → UInt8) :
    modifyAt bytes i f = .error .indexOutOfRange := dif_neg (not_lt.mpr h)

theorem foldlM_store (is : List ℕ) (his : ∀ i ∈ is, i < 16) :
    ∃ bytes', is.foldlM (fun bytes i => modifyAt bytes i fun _ => v) bytes = .ok bytes' ∧
      ∀ j (hj : j < 16), bytes'[j] = if j ∈ is then v else bytes[j] := by
  induction is generalizing bytes with
  | nil => exact ⟨bytes, rfl, fun j hj => by rw [if_neg List.not_mem_nil]⟩
  | cons i is ih =>
      have hi : i < 16 := his i List.mem_cons_self
      obtain ⟨bytes', hfold, hget⟩ := @ih (bytes.set i v) fun k hk =>
        his k (List.mem_cons_of_mem i hk)
      refine ⟨bytes', ?_, fun j hj => ?_⟩
      · rw [List.foldlM_cons, modifyAt_eq hi, ok_bind]
        exact hfold
      · rw [hget, Vector.getElem_set]
        by_cases hij : i = j
        · simp [hij]
        · simp [hij, Ne.symm hij]

theorem fill_spec {lo hi : ℕ} (h : hi ≤ 16) :
    ∃ bytes', fill v lo hi bytes = .ok bytes' ∧
      ∀ j (hj : j < 16), bytes'[j] = if lo ≤ j ∧ j < hi then v else bytes[j] := by
  obtain ⟨bytes', hfold, hget⟩ := @foldlM_store bytes v (List.range' lo (hi - lo)) fun i hi => by
    rw [List.mem_range'_1] at hi
    omega
  refine ⟨bytes', hfold, fun j hj => ?_⟩
  rw [hget]
  refine if_congr ?_ rfl rfl
  rw [List.mem_range'_1]
  omega

/-- A change of one byte and a fill behind it. -/
theorem modifyAt_fill {q : ℕ} (hq : q < 16) (f : UInt8 → UInt8) (v : UInt8)
    (bytes : Vector UInt8 16) :
    ∃ bytes', (modifyAt bytes q f >>= fill v (q + 1) 16) = .ok bytes' ∧
      ∀ j (hj : j < 16), (j < q → bytes'[j] = bytes[j]) ∧ (j = q → bytes'[j] = f bytes[j]) ∧
        (q < j → bytes'[j] = v) := by
  obtain ⟨bytes', hfill, hget⟩ := @fill_spec (bytes.set q (f bytes[q])) v (q + 1) 16 le_rfl
  refine ⟨bytes', by rw [modifyAt_eq hq, ok_bind, hfill], fun j hj => ⟨?_, ?_, ?_⟩⟩
  · intro hlt
    rw [hget, if_neg (by omega), Vector.getElem_set, if_neg (by omega)]
  · rintro rfl
    rw [hget, if_neg (by omega), Vector.getElem_set, if_pos rfl]
  · intro hgt
    rw [hget, if_pos (by omega)]

theorem createMask_byte (p : UInt32) :
    createMask 8 (p % 8) = .ok (~~~leadingOnes 8 (p.toNat % 8)) := by
  have hmod : (p % 8).toNat = p.toNat % 8 := rfl
  have hlt := Nat.mod_lt p.toNat (show 8 > 0 by decide)
  have hmask := @createMask_eq 8 (p % 8) (by omega) (by decide) (by omega)
  rwa [hmod] at hmask

end Bytes

namespace IPv6Address
variable {a r : IPv6Address} {p : ℕ}

theorem toNat_bits (a : IPv6Address) : a.bits.toNat = load .big a.s6_addr.toList := by
  have hlt := load_lt .big a.s6_addr.toList
  rw [Vector.length_toList] at hlt
  rw [bits, BitVec.toNat_ofNat]
  exact Nat.mod_eq_of_lt hlt

theorem load_mask (h : p ≤ 128) :
    load .big (maskBytes 16 p) = (leadingOnes 128 p).toNat := by
  rw [toNat_leadingOnes]
  exact load_maskBytes (n := 16) h

/-- The bits of an address whose bytes are those of a list. -/
theorem toNat_bits_of_getElem {cs : List UInt8} (hlen : cs.length = 16)
    (hr : ∀ j (hj : j < 16), r.s6_addr[j] = cs[j]) : r.bits.toNat = load .big cs := by
  rw [toNat_bits]
  congr 1
  apply List.ext_getElem
  · rw [Vector.length_toList, hlen]
  · intro j hj _
    rw [Vector.length_toList] at hj
    exact hr j hj

theorem bits_mask (h : p ≤ 128) (hr : ∀ j (hj : j < 16), r.s6_addr[j] = maskByte p j) :
    r.bits = leadingOnes 128 p := by
  apply BitVec.eq_of_toNat_eq
  rw [← load_mask h]
  apply toNat_bits_of_getElem (length_maskBytes 16 p)
  intro j hj
  simpa [maskBytes] using hr j hj

theorem bits_and (h : p ≤ 128)
    (hr : ∀ j (hj : j < 16), r.s6_addr[j] = a.s6_addr[j] &&& maskByte p j) :
    r.bits = a.bits &&& leadingOnes 128 p := by
  have hlen : a.s6_addr.toList.length = (maskBytes 16 p).length := by simp
  apply BitVec.eq_of_toNat_eq
  rw [BitVec.toNat_and, toNat_bits a, ← load_mask h, load_zipWith (e := .big) bytewise_and hlen]
  apply toNat_bits_of_getElem (by simp)
  intro j hj
  simpa [maskBytes] using hr j hj

theorem bits_or_not (h : p ≤ 128)
    (hr : ∀ j (hj : j < 16), r.s6_addr[j] = a.s6_addr[j] ||| ~~~maskByte p j) :
    r.bits = a.bits ||| ~~~leadingOnes 128 p := by
  have hnot : (~~~leadingOnes 128 p).toNat =
      load .big (List.zipWith (fun x _ => ~~~x) (maskBytes 16 p) (maskBytes 16 p)) := by
    rw [← load_zipWith (e := .big) bytewise_complement rfl, load_mask h, length_maskBytes,
      BitVec.toNat_not, complement, Nat.sub_sub, Nat.add_comm]
    rfl
  have hlen : a.s6_addr.toList.length =
      (List.zipWith (fun x _ => ~~~x) (maskBytes 16 p) (maskBytes 16 p)).length := by simp
  apply BitVec.eq_of_toNat_eq
  rw [BitVec.toNat_or, toNat_bits a, hnot, load_zipWith (e := .big) bytewise_or hlen]
  apply toNat_bits_of_getElem (by simp)
  intro j hj
  simpa [maskBytes] using hr j hj

/-- The fields beside the address are those of `a`. -/
def SameFields (a r : IPv6Address) : Prop := r = { a with s6_addr := r.s6_addr }

theorem networkAddress_spec (a : IPv6Address) {prefix_len : UInt32} (h : prefix_len.toNat < 128) :
    ∃ r, a.networkAddress prefix_len = .ok (some r) ∧
      r.bits = a.bits &&& leadingOnes 128 prefix_len.toNat ∧ SameFields a r := by
  obtain ⟨bytes, hbytes, hget⟩ := modifyAt_fill (show prefix_len.toNat / 8 < 16 by omega)
    (fun b => b &&& ~~~.ofBitVec (~~~leadingOnes 8 (prefix_len.toNat % 8))) 0 a.s6_addr
  refine ⟨{ a with s6_addr := bytes }, ?_, ?_, rfl⟩
  · rw [networkAddress, createMask_byte, ok_bind, ← bind_assoc, hbytes, ok_bind]
  · apply bits_and h.le
    intro j hj
    obtain ⟨hbefore, hcut, hbehind⟩ := hget j hj
    rcases lt_trichotomy j (prefix_len.toNat / 8) with hlt | heq | hgt
    · rw [hbefore hlt, maskByte_before hlt]
      exact UInt8.and_neg_one.symm
    · rw [hcut heq, maskByte_cut heq, UInt8.ofBitVec_not, UInt8.not_not]
    · rw [hbehind hgt, maskByte_behind hgt, UInt8.and_zero]

theorem broadcastAddress_spec (a : IPv6Address) {prefix_len : UInt32}
    (h : prefix_len.toNat < 128) :
    ∃ r, a.broadcastAddress prefix_len = .ok (some r) ∧
      r.bits = a.bits ||| ~~~leadingOnes 128 prefix_len.toNat ∧ SameFields a r := by
  obtain ⟨bytes, hbytes, hget⟩ := modifyAt_fill (show prefix_len.toNat / 8 < 16 by omega)
    (fun b => b ||| .ofBitVec (~~~leadingOnes 8 (prefix_len.toNat % 8))) 0xff a.s6_addr
  refine ⟨{ a with s6_addr := bytes }, ?_, ?_, rfl⟩
  · rw [broadcastAddress, createMask_byte, ok_bind, ← bind_assoc, hbytes, ok_bind]
  · apply bits_or_not h.le
    intro j hj
    obtain ⟨hbefore, hcut, hbehind⟩ := hget j hj
    rcases lt_trichotomy j (prefix_len.toNat / 8) with hlt | heq | hgt
    · rw [hbefore hlt, maskByte_before hlt]
      exact UInt8.or_zero.symm
    · rw [hcut heq, maskByte_cut heq, UInt8.ofBitVec_not]
    · rw [hbehind hgt, maskByte_behind hgt]
      exact UInt8.or_neg_one.symm

theorem subnetMask_spec {prefix_len : UInt32} (h : prefix_len.toNat < 128) :
    ∃ r, subnetMask prefix_len = .ok (some r) ∧
      r.bits = leadingOnes 128 prefix_len.toNat ∧ SameFields zeroed r := by
  have hindex : prefix_len.toNat / 8 < 16 := by omega
  obtain ⟨bytes, hfill, hget⟩ := @fill_spec (zeroed.s6_addr.set (prefix_len.toNat / 8)
    (~~~.ofBitVec (~~~leadingOnes 8 (prefix_len.toNat % 8)))) 0xff 0 (prefix_len.toNat / 8)
    hindex.le
  refine ⟨{ zeroed with s6_addr := bytes }, ?_, ?_, rfl⟩
  · rw [subnetMask, createMask_byte, ok_bind, modifyAt_eq hindex, ok_bind, hfill, ok_bind]
  · apply bits_mask h.le
    intro j hj
    rw [hget, Vector.getElem_set]
    rcases lt_trichotomy j (prefix_len.toNat / 8) with hlt | heq | hgt
    · rw [if_pos (by omega), maskByte_before hlt]
    · rw [if_neg (by omega), if_pos heq.symm, maskByte_cut heq, UInt8.ofBitVec_not,
        UInt8.not_not]
    · rw [if_neg (by omega), if_neg (by omega), maskByte_behind hgt]
      exact Vector.getElem_replicate _

/-- What the three functions are for, at one length of the prefix: the address, the fields
beside it, no index behind the address, and no answer to a length above 128. -/
structure SubnetsRight (a : IPv6Address) (prefix_len : UInt32) : Prop where
  network : prefix_len.toNat ≤ 128 → ∃ r, a.networkAddress prefix_len = .ok (some r) ∧
    r.bits = a.bits &&& leadingOnes 128 prefix_len.toNat ∧ SameFields a r
  broadcast : prefix_len.toNat ≤ 128 → ∃ r, a.broadcastAddress prefix_len = .ok (some r) ∧
    r.bits = a.bits ||| ~~~leadingOnes 128 prefix_len.toNat ∧ SameFields a r
  mask : prefix_len.toNat ≤ 128 → ∃ r, subnetMask prefix_len = .ok (some r) ∧
    r.bits = leadingOnes 128 prefix_len.toNat ∧ SameFields zeroed r
  rejected : 128 < prefix_len.toNat → a.networkAddress prefix_len = .ok none ∧
    a.broadcastAddress prefix_len = .ok none ∧ subnetMask prefix_len = .ok none

/-- From 128 on the byte at the end of the prefix lies behind the address. -/
theorem networkAddress_behind (a : IPv6Address) {prefix_len : UInt32}
    (h : 128 ≤ prefix_len.toNat) : a.networkAddress prefix_len = .error .indexOutOfRange := by
  rw [networkAddress, createMask_byte, ok_bind, modifyAt_behind (by omega)]
  rfl

/-- The subnets are right for every length that does not cover the whole address. -/
theorem ipv6_subnetsRight_iff (a : IPv6Address) (prefix_len : UInt32) :
    SubnetsRight a prefix_len ↔ prefix_len.toNat < 128 := by
  constructor
  · intro hright
    by_contra hlong
    have hbehind := networkAddress_behind a (not_lt.mp hlong)
    rcases Nat.lt_or_ge 128 prefix_len.toNat with hlarge | hwhole
    · have hnone := (hright.rejected hlarge).1
      rw [hbehind] at hnone
      cases hnone
    · obtain ⟨r, hr, -⟩ := hright.network hwhole
      rw [hbehind] at hr
      cases hr
  · intro h
    refine ⟨fun _ => networkAddress_spec a h, fun _ => broadcastAddress_spec a h,
      fun _ => subnetMask_spec h, fun hlarge => ?_⟩
    omega

/-- The network of one host. -/
theorem whole_prefix :
    zeroed.networkAddress 128 = .error .indexOutOfRange ∧
      zeroed.broadcastAddress 128 = .error .indexOutOfRange ∧
      subnetMask 128 = .error .indexOutOfRange ∧
      zeroed.networkAddress 136 = .error .indexOutOfRange ∧ ¬SubnetsRight zeroed 128 := by
  refine ⟨rfl, rfl, rfl, rfl, fun hright => ?_⟩
  obtain ⟨r, hr, -⟩ := hright.network (by decide)
  cases hr

end IPv6Address

end Xzmjx.AddressModel
