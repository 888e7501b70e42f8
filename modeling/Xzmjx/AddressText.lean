import Xzmjx.AddressModel
import Xzmjx.ByteWords
import Xzmjx.HttpDump
import Xzmjx.Ipv6Notation
import Xzmjx.WebSocketFrames

/-!
# The text of an IPv6 address

`insert` leaves out the first run of zero groups while it prints the others, with one flag for
the run, and `Lookup` takes the host between the brackets and the service behind them.
-/
namespace Xzmjx.AddressModel
open ByteOrder ByteWords Ipv6Notation Numerals
open WebSocketModel (endianCastOnLittle endianCastOnLittle_load)
open HttpRequestModel (decimal decimal_eq)

namespace IPv6Address

/-- `(uint16_t*)s6_addr`. -/
def words (native : Endian) (a : IPv6Address) : List ℕ :=
  (List.range 8).map (loadAt native 2 a.s6_addr.toList)

/-- The stream and `used_zero`. -/
structure Printer where
  out : List UInt8
  used_zero : Bool
  deriving DecidableEq, Repr

/-- A round of the loop; `prev` is `addr[i - 1]`. -/
def insertRound (native : Endian) (i prev w : ℕ) (s : Printer) : Printer :=
  if w = 0 ∧ s.used_zero = false then s
  else
    let s := if i ≠ 0 ∧ prev = 0 ∧ s.used_zero = false then ⟨s.out ++ [colon], true⟩ else s
    let s := if i ≠ 0 then { s with out := s.out ++ [colon] } else s
    { s with out := s.out ++ hex (endianCastOnLittle native 2 w) }

/-- The loop from the word with index `i` on. -/
def insertLoop (native : Endian) : ℕ → ℕ → List ℕ → Printer → Printer
  | _, _, [], s => s
  | i, prev, w :: ws, s => insertLoop native (i + 1) w ws (insertRound native i prev w s)

def insert (native : Endian) (a : IPv6Address) : List UInt8 :=
  let addr := a.words native
  let s := insertLoop native 0 0 addr ⟨['['.toUInt8], false⟩
  let out := if s.used_zero = false ∧ addr.getD 7 0 = 0 then s.out ++ [colon, colon] else s.out
  out ++ [']'.toUInt8, colon] ++ decimal (endianCast16 native a.sin6_port).toNat

/-- The port in host order. -/
def port (native : Endian) (a : IPv6Address) : ℕ := (endianCast16 native a.sin6_port).toNat

end IPv6Address

/-- A `const char*` is read up to the terminator. -/
def cString (s : List UInt8) : List UInt8 := s.takeWhile (· ≠ 0)

/-- The node and the service that `Address::Lookup` passes on; no service is a null pointer. -/
def hostSplit (host : List UInt8) : List UInt8 × Option (List UInt8) :=
  let bracketed : List UInt8 × Option (List UInt8) :=
    if host.head? = some '['.toUInt8 then
      match (host.drop 1).findIdx? (· == ']'.toUInt8) with
      | some k =>
          ((host.drop 1).take k,
            if host.getD (k + 2) 0 = colon then some (cString (host.drop (k + 3))) else none)
      | none => ([], none)
    else ([], none)
  let plain : List UInt8 × Option (List UInt8) :=
    if bracketed.1 = [] then
      match host.findIdx? (· == colon) with
      -- with a second colon the service still points to the first
      | some k =>
          if colon ∈ host.drop (k + 1) then ([], some (cString (host.drop k)))
          else (host.take k, some (cString (host.drop (k + 1))))
      | none => ([], none)
    else bracketed
  (if plain.1 = [] then host else plain.1, plain.2)

/-- `inet_pton(AF_INET6, …)`: the bytes of the groups that the text parses to. -/
def inet_pton (text : List UInt8) : Option (List UInt8) :=
  (parse text).map fun gs => gs.flatMap (store .big 2)

/-! ### The loop -/

namespace IPv6Address
variable {native : Endian} {a : IPv6Address} {ws : List ℕ} {out : List UInt8} {i prev : ℕ}

/-- Behind the pair of colons every group is printed. -/
theorem insertLoop_used :
    insertLoop native (i + 1) prev ws ⟨out, true⟩ =
      ⟨out ++ (ws.map (endianCastOnLittle native 2)).flatMap fun w => colon :: hex w, true⟩ := by
  induction ws generalizing i prev out with
  | nil => simp [insertLoop]
  | cons w ws ih =>
      have hround : insertRound native (i + 1) prev w ⟨out, true⟩ =
          ⟨out ++ [colon] ++ hex (endianCastOnLittle native 2 w), true⟩ := by
        simp [insertRound]
      rw [insertLoop, hround, ih]
      simp

/-- In the run of zeros nothing is printed. -/
theorem insertLoop_run (z : ℕ) :
    insertLoop native (i + 1) 0 (List.replicate z 0 ++ ws) ⟨out, false⟩ =
      insertLoop native (i + 1 + z) 0 ws ⟨out, false⟩ := by
  induction z generalizing i with
  | zero => rfl
  | succ z ih =>
      rw [List.replicate_succ, List.cons_append, insertLoop, insertRound, if_pos ⟨rfl, rfl⟩, ih,
        Nat.add_right_comm (i + 1)]
      rfl

/-- The first group behind the run closes it. -/
theorem insertLoop_after {v : ℕ} (hv : v ≠ 0) :
    insertLoop native (i + 1) 0 (v :: ws) ⟨out, false⟩ =
      ⟨out ++ [colon, colon] ++ groupsText ((v :: ws).map (endianCastOnLittle native 2)),
        true⟩ := by
  have hround : insertRound native (i + 1) 0 v ⟨out, false⟩ =
      ⟨out ++ [colon, colon] ++ hex (endianCastOnLittle native 2 v), true⟩ := by
    simp [insertRound, hv]
  rw [insertLoop, hround, insertLoop_used, List.map_cons, groupsText_cons, List.append_assoc]

/-- Before the run every group is printed. -/
theorem insertLoop_before {us : List ℕ} (hprev : prev ≠ 0) (hus : ∀ u ∈ us, u ≠ 0) :
    ∃ last, insertLoop native (i + 1) prev (us ++ ws) ⟨out, false⟩ =
      insertLoop native (i + 1 + us.length) last ws
        ⟨out ++ (us.map (endianCastOnLittle native 2)).flatMap fun w => colon :: hex w, false⟩ := by
  induction us generalizing i prev out with
  | nil => exact ⟨prev, by simp⟩
  | cons u us ih =>
      have hu : u ≠ 0 := hus u List.mem_cons_self
      have hround : insertRound native (i + 1) prev u ⟨out, false⟩ =
          ⟨out ++ [colon] ++ hex (endianCastOnLittle native 2 u), false⟩ := by
        simp [insertRound, hu, hprev]
      have hindex : i + 1 + 1 + us.length = i + 1 + (us.length + 1) := by omega
      obtain ⟨last, hloop⟩ := @ih (out ++ [colon] ++ hex (endianCastOnLittle native 2 u))
        (i + 1) u hu fun v hv => hus v (List.mem_cons_of_mem u hv)
      refine ⟨last, ?_⟩
      rw [List.cons_append, insertLoop, hround, hloop, List.length_cons, hindex]
      simp

/-- The groups before the first zero. -/
theorem insertLoop_start {us : List ℕ} (hus : ∀ u ∈ us, u ≠ 0) :
    ∃ k p, insertLoop native 0 0 (us ++ ws) ⟨out, false⟩ =
      insertLoop native k p ws
        ⟨out ++ groupsText (us.map (endianCastOnLittle native 2)), false⟩ := by
  cases us with
  | nil => exact ⟨0, 0, by simp [groupsText, joined]⟩
  | cons u us =>
      have hu : u ≠ 0 := hus u List.mem_cons_self
      have hround : insertRound native 0 0 u ⟨out, false⟩ =
          ⟨out ++ hex (endianCastOnLittle native 2 u), false⟩ := by
        simp [insertRound, hu]
      obtain ⟨last, hloop⟩ := @insertLoop_before native ws
        (out ++ hex (endianCastOnLittle native 2 u)) 0 u us hu fun v hv =>
          hus v (List.mem_cons_of_mem u hv)
      refine ⟨0 + 1 + us.length, last, ?_⟩
      rw [List.cons_append, insertLoop, hround, hloop, List.map_cons, groupsText_cons,
        List.append_assoc]

/-- The run of zeros and the groups behind it. -/
theorem insertLoop_zeros (z k p : ℕ) {vs : List ℕ} (hvs : ∀ v ∈ vs.head?, v ≠ 0) :
    insertLoop native k p (List.replicate (z + 1) 0 ++ vs) ⟨out, false⟩ =
      if vs = [] then ⟨out, false⟩
      else ⟨out ++ [colon, colon] ++ groupsText (vs.map (endianCastOnLittle native 2)), true⟩ := by
  rw [List.replicate_succ, List.cons_append, insertLoop, insertRound, if_pos ⟨rfl, rfl⟩,
    insertLoop_run]
  cases vs with
  | nil => rfl
  | cons v vs =>
      rw [if_neg (List.cons_ne_nil v vs), Nat.add_right_comm]
      exact insertLoop_after (hvs v rfl)

theorem exists_zeros (ws : List ℕ) :
    ∃ z vs, ws = List.replicate z 0 ++ vs ∧ ∀ v ∈ vs.head?, v ≠ 0 := by
  induction ws with
  | nil => exact ⟨0, [], rfl, by simp⟩
  | cons w ws ih =>
      by_cases hw : w = 0
      · obtain ⟨z, vs, hws, hvs⟩ := ih
        exact ⟨z + 1, vs, by rw [hw, hws]; rfl, hvs⟩
      · exact ⟨0, w :: ws, rfl, by simp [hw]⟩

/-- The words around the first run of zeros. -/
theorem exists_run (ws : List ℕ) :
    ∃ us z vs, ws = us ++ (List.replicate z 0 ++ vs) ∧ (∀ u ∈ us, u ≠ 0) ∧ (z = 0 → vs = []) ∧
      ∀ v ∈ vs.head?, v ≠ 0 := by
  induction ws with
  | nil => exact ⟨[], 0, [], rfl, by simp, fun _ => rfl, by simp⟩
  | cons w ws ih =>
      by_cases hw : w = 0
      · obtain ⟨z, vs, hws, hvs⟩ := exists_zeros ws
        exact ⟨[], z + 1, vs, by rw [hw, hws]; rfl, by simp, by omega, hvs⟩
      · obtain ⟨us, z, vs, hws, hus, hz, hvs⟩ := ih
        refine ⟨w :: us, z, vs, by rw [hws]; rfl, ?_, hz, hvs⟩
        intro u hu
        rcases List.mem_cons.mp hu with rfl | hu
        · exact hw
        · exact hus u hu

/-- The groups of the address. -/
def groups (native : Endian) (a : IPv6Address) : List ℕ :=
  (a.words native).map (endianCastOnLittle native 2)

/-- The text between the brackets. -/
inductive Shown (gs : List ℕ) : List UInt8 → Prop
  | full : Shown gs (groupsText gs)
  | compressed {us vs : List ℕ} {z : ℕ} (hgs : gs = us ++ (List.replicate (z + 1) 0 ++ vs)) :
      Shown gs (groupsText us ++ [colon, colon] ++ groupsText vs)

theorem endianCastOnLittle_zero : endianCastOnLittle native 2 0 = 0 := by
  cases native <;> rfl

/-- What the loop and the last test leave in the stream. -/
theorem exists_shown {ws : List ℕ} (hlen : ws.length = 8) (out : List UInt8) :
    ∃ text, (if (insertLoop native 0 0 ws ⟨out, false⟩).used_zero = false ∧ ws.getD 7 0 = 0 then
        (insertLoop native 0 0 ws ⟨out, false⟩).out ++ [colon, colon]
      else (insertLoop native 0 0 ws ⟨out, false⟩).out) = out ++ text ∧
      Shown (ws.map (endianCastOnLittle native 2)) text := by
  obtain ⟨us, z, vs, rfl, hus, hz, hvs⟩ := exists_run ws
  obtain ⟨k, p, hstart⟩ := @insertLoop_start native (List.replicate z 0 ++ vs) out us hus
  rw [hstart]
  cases z with
  | zero =>
      rw [hz rfl, List.replicate_zero, List.append_nil, List.append_nil] at hlen ⊢
      have hlast : us.getD 7 0 ≠ 0 := by
        rw [List.getD_eq_getElem us 0 (by omega)]
        exact hus _ (List.getElem_mem _)
      rw [insertLoop, if_neg fun h => hlast h.2]
      exact ⟨_, rfl, Shown.full⟩
  | succ z =>
      have hgroups : (us ++ (List.replicate (z + 1) 0 ++ vs)).map (endianCastOnLittle native 2) =
          us.map (endianCastOnLittle native 2) ++
            (List.replicate (z + 1) 0 ++ vs.map (endianCastOnLittle native 2)) := by
        rw [List.map_append, List.map_append, List.map_replicate, endianCastOnLittle_zero]
      refine ⟨_, ?_, Shown.compressed hgroups⟩
      rw [insertLoop_zeros z k p hvs]
      by_cases hnil : vs = []
      · subst hnil
        rw [List.append_nil, List.length_append, List.length_replicate] at hlen
        have hlast : (us ++ (List.replicate (z + 1) 0 ++ [])).getD 7 0 = 0 := by
          rw [List.append_nil, List.getD_append_right _ _ _ _ (by omega),
            List.getD_replicate 0 (by omega)]
        rw [if_pos rfl, if_pos ⟨rfl, hlast⟩]
        simp [groupsText, joined]
      · rw [if_neg hnil, if_neg fun h => Bool.noConfusion h.1]
        simp

theorem insert_eq (native : Endian) (a : IPv6Address) :
    ∃ text, a.insert native = ['['.toUInt8] ++ text ++ [']'.toUInt8, colon] ++
      decimal (a.port native) ∧ Shown (a.groups native) text := by
  have hlen : (a.words native).length = 8 := by
    rw [words, List.length_map, List.length_range]
  obtain ⟨text, hout, hshown⟩ := @exists_shown native _ hlen ['['.toUInt8]
  refine ⟨text, ?_, hshown⟩
  rw [← hout]
  rfl

/-! ### The text read back -/

/-- Two bytes of the address. -/
def chunk (a : IPv6Address) (i : ℕ) : List UInt8 := (a.s6_addr.toList.drop (i * 2)).take 2

theorem length_chunk (a : IPv6Address) {i : ℕ} (hi : i < 8) : (a.chunk i).length = 2 := by
  rw [chunk, List.length_take, List.length_drop, Vector.length_toList]
  omega

theorem groups_eq (native : Endian) (a : IPv6Address) :
    a.groups native = (List.range 8).map fun i => load .big (a.chunk i) := by
  rw [groups, words, List.map_map]
  apply List.map_congr_left
  intro i hi
  have hload := endianCastOnLittle_load native (a.chunk i)
  rw [length_chunk a (List.mem_range.mp hi)] at hload
  exact hload

theorem groups_lt {g : ℕ} (hg : g ∈ a.groups native) : g < 65536 := by
  rw [groups_eq] at hg
  obtain ⟨i, hi, rfl⟩ := List.mem_map.mp hg
  have hlt := load_lt .big (a.chunk i)
  rw [length_chunk a (List.mem_range.mp hi)] at hlt
  exact hlt

theorem length_groups (native : Endian) (a : IPv6Address) : (a.groups native).length = 8 := by
  rw [groups_eq, List.length_map, List.length_range]

theorem flatMap_chunks (bs : List UInt8) (n k : ℕ) :
    ((List.range k).flatMap fun i => (bs.drop (i * n)).take n) = bs.take (k * n) := by
  induction k with
  | zero => rw [Nat.zero_mul, List.take_zero]; rfl
  | succ k ih =>
      rw [List.range_succ, List.flatMap_append, ih, List.flatMap_singleton, Nat.succ_mul,
        List.take_add]

/-- The groups hold all the bytes. -/
theorem bytes_of_groups (native : Endian) (a : IPv6Address) :
    (a.groups native).flatMap (store .big 2) = a.s6_addr.toList := by
  have hchunks : (a.groups native).flatMap (store .big 2) = (List.range 8).flatMap a.chunk := by
    rw [groups_eq, List.flatMap_map]
    apply List.flatMap_congr
    intro i hi
    have hstore := store_load .big (a.chunk i)
    rwa [length_chunk a (List.mem_range.mp hi)] at hstore
  have hlen : a.s6_addr.toList.length ≤ 8 * 2 := by
    rw [Vector.length_toList]
  rw [hchunks, show a.chunk = fun i => (a.s6_addr.toList.drop (i * 2)).take 2 from rfl,
    flatMap_chunks, List.take_of_length_le hlen]

theorem Shown.spec {gs : List ℕ} {text : List UInt8} (h : Shown gs text)
    (hgs : ∀ g ∈ gs, g < 65536) (hlen : gs.length = 8) : Valid text ∧ parse text = some gs := by
  cases h with
  | full => exact ⟨valid_full hgs hlen, parse_full hgs hlen⟩
  | @compressed us vs z hsplit =>
      subst hsplit
      have hus : ∀ u ∈ us, u < 65536 := fun u hu => hgs u (List.mem_append_left _ hu)
      have hvs : ∀ v ∈ vs, v < 65536 := fun v hv =>
        hgs v (List.mem_append_right _ (List.mem_append_right _ hv))
      rw [List.length_append, List.length_append, List.length_replicate] at hlen
      have hfew : us.length + vs.length ≤ 7 := by omega
      have hmissing : 8 - (us.length + vs.length) = z + 1 := by omega
      refine ⟨valid_compressed hus hvs hfew, ?_⟩
      rw [parse_compressed hus hvs hfew, hmissing, List.append_assoc]

/-! ### The host -/

theorem findIdx?_first {xs ys : List UInt8} {x : UInt8} (h : x ∉ xs) :
    (xs ++ x :: ys).findIdx? (· == x) = some xs.length := by
  induction xs with
  | nil => simp [List.findIdx?_cons]
  | cons y xs ih =>
      have hy : ¬(y == x) = true := by
        rw [beq_iff_eq]
        rintro rfl
        exact h List.mem_cons_self
      rw [List.cons_append, List.findIdx?_cons, if_neg hy,
        ih fun hmem => h (List.mem_cons_of_mem y hmem)]
      rfl

theorem cString_decimal (n : ℕ) : cString (decimal n) = decimal n := by
  rw [cString, List.takeWhile_eq_self_iff]
  intro c hc
  rw [decimal_eq] at hc
  obtain ⟨d, hd, rfl⟩ := exists_digit_of_mem (by decide) hc
  apply decide_eq_true
  intro hzero
  have hvalue := digitValue_digit (show d < 16 by omega)
  rw [hzero] at hvalue
  cases hvalue

theorem bracket_not_mem {text : List UInt8} (h : Valid text) : ']'.toUInt8 ∉ text := by
  intro hmem
  rcases h.mem hmem with hcolon | hdigit
  · cases hcolon
  · revert hdigit
    decide

/-- The host and the service of a text in brackets. -/
theorem hostSplit_bracketed {text : List UInt8} (h : Valid text) (n : ℕ) :
    hostSplit (['['.toUInt8] ++ text ++ [']'.toUInt8, colon] ++ decimal n) =
      (text, some (decimal n)) := by
  have hfind := @findIdx?_first text (colon :: decimal n) _ (bracket_not_mem h)
  have hhost : ['['.toUInt8] ++ text ++ [']'.toUInt8, colon] ++ decimal n =
      '['.toUInt8 :: (text ++ ']'.toUInt8 :: colon :: decimal n) := by simp
  have hnode : (text ++ ']'.toUInt8 :: colon :: decimal n).take text.length = text :=
    List.take_left
  have hcolon : ('['.toUInt8 :: (text ++ ']'.toUInt8 :: colon :: decimal n)).getD
      (text.length + 2) 0 = colon := by
    rw [List.getD_cons_succ, List.getD_append_right _ _ _ _ (by omega), Nat.add_sub_cancel_left]
    rfl
  have hservice : ('['.toUInt8 :: (text ++ ']'.toUInt8 :: colon :: decimal n)).drop
      (text.length + 3) = decimal n := by
    rw [List.drop_succ_cons, ← List.drop_drop, List.drop_left]
    rfl
  rw [hhost, hostSplit]
  simp only [List.head?_cons, List.drop_succ_cons, List.drop_zero, hfind, hnode, hcolon, hservice,
    h.ne_nil, if_true, if_false, cString_decimal]

theorem read_back (native : Endian) (a : IPv6Address) :
    ∃ text, a.insert native = ['['.toUInt8] ++ text ++ [']'.toUInt8, colon] ++
        decimal (a.port native) ∧
      Valid text ∧ inet_pton text = some a.s6_addr.toList ∧
      hostSplit (a.insert native) = (text, some (decimal (a.port native))) := by
  obtain ⟨text, hinsert, hshown⟩ := insert_eq native a
  obtain ⟨hvalid, hparse⟩ := hshown.spec (fun g hg => groups_lt hg) (length_groups native a)
  refine ⟨text, hinsert, hvalid, ?_, ?_⟩
  · rw [inet_pton, hparse, Option.map_some, bytes_of_groups]
  · rw [hinsert]
    exact hostSplit_bracketed hvalid _

/-- The text of an address is faithful: it is valid, it is read back as the same bytes, the host
and the service come apart again, and it tells addresses and ports from each other. -/
theorem text_faithful (native : Endian) (a : IPv6Address) :
    (∃ text, a.insert native = ['['.toUInt8] ++ text ++ [']'.toUInt8, colon] ++
        decimal (a.port native) ∧
      Valid text ∧ inet_pton text = some a.s6_addr.toList ∧
      hostSplit (a.insert native) = (text, some (decimal (a.port native)))) ∧
    ∀ b : IPv6Address, a.insert native = b.insert native ↔
      a.s6_addr = b.s6_addr ∧ a.port native = b.port native := by
  refine ⟨read_back native a, fun b => ⟨fun heq => ?_, fun heq => ?_⟩⟩
  · obtain ⟨text, -, -, hbytes, hsplit⟩ := read_back native a
    obtain ⟨text', -, -, hbytes', hsplit'⟩ := read_back native b
    rw [heq, hsplit'] at hsplit
    obtain ⟨htext, hservice⟩ := Prod.mk.inj hsplit
    rw [htext, hbytes] at hbytes'
    rw [Option.some.injEq, decimal_eq, decimal_eq] at hservice
    exact ⟨Vector.toList_inj.mp (Option.some.inj hbytes'),
      (numeral_injective (by decide) (by decide) hservice).symm⟩
  · have hwords : a.words native = b.words native := by rw [words, words, heq.1]
    have hport : (endianCast16 native a.sin6_port).toNat =
        (endianCast16 native b.sin6_port).toNat := heq.2
    rw [insert, insert, hwords, hport]

/-- The loopback address. -/
example : insert .little
    ⟨AF_INET6, 0x901f, 0, ⟨#[0, 0, 0, 0, 0, 0, 0, 0, 0, 0, 0, 0, 0, 0, 0, 1], rfl⟩, 0⟩ =
      HttpParserModel.bytes "[::1]:8080" := by
  decide +kernel

end IPv6Address

end Xzmjx.AddressModel
