import Mathlib.Algebra.Order.Ring.Nat
import Mathlib.Tactic.Ring
import Xzmjx.Base64Model
import Xzmjx.UrlCoding

/-!
# What base64decode accepts and gives back

`Decodes` says which texts are base64 and what they stand for, group by group. The decoder
returns that, or the empty string if there is no such thing, and never stores past the
allocated bytes; the encoder produces such a text.
-/
namespace Xzmjx.Base64
open HttpParserModel FallibleCalls

/-! ### The alphabet -/

theorem value_char : ∀ v < 64, value (char v) = some v := by decide +kernel

theorem char_mem : ∀ v < 64, char v ∈ base64 := by decide +kernel

/-- The value of a character of the alphabet. -/
def sextet (c : UInt8) : ℕ := (value c).getD 0

theorem value_cases (c : UInt8) :
    value c = none ∨ value c = some (sextet c) ∧ sextet c < 64 ∧ char (sextet c) = c := by
  apply UrlCoding.forall_byte (p := fun c => _ ∨ _ ∧ _ ∧ _) ?_ c
  decide +kernel

theorem value_spec (c : UInt8) :
    (c ∈ base64 → value c = some (sextet c) ∧ sextet c < 64 ∧ char (sextet c) = c) ∧
      (c ∉ base64 → value c = none) ∧ (c = '='.toUInt8 → c ∉ base64) := by
  refine ⟨fun h => ?_, fun h => ?_, ?_⟩
  · obtain ⟨v, hv, rfl⟩ := List.getElem_of_mem h
    have hchar : base64[v] = char v := by
      rw [char, List.getD_eq_getElem?_getD, List.getElem?_eq_getElem hv, Option.getD_some]
    have hvalue := value_char v hv
    rw [hchar]
    exact (value_cases (char v)).resolve_left (by simp [hvalue])
  · apply (value_cases c).resolve_right
    rintro ⟨-, hlt, hchar⟩
    exact h (hchar ▸ char_mem _ hlt)
  · rintro rfl
    decide

theorem value_eq {c : UInt8} (h : c ∈ base64) : value c = some (sextet c) :=
  ((value_spec c).1 h).1

theorem sextet_lt {c : UInt8} (h : c ∈ base64) : sextet c < 64 := ((value_spec c).1 h).2.1

theorem char_sextet {c : UInt8} (h : c ∈ base64) : char (sextet c) = c :=
  ((value_spec c).1 h).2.2

theorem sextet_char {v : ℕ} (h : v < 64) : sextet (char v) = v := by
  rw [sextet, value_char v h]
  rfl

theorem ne_padding {c : UInt8} (h : c ∈ base64) : c ≠ '='.toUInt8 :=
  fun he => (value_spec c).2.2 he h

/-! ### Groups of characters -/

/-- The digits of a group behind `packed`. -/
def join (packed : ℕ) (cs : Bytes) : ℕ := cs.foldl (fun n c => n * 64 + sextet c) packed

theorem shift_or (packed : ℕ) {v k : ℕ} (h : v < 2 ^ k) :
    packed <<< k ||| v = packed * 2 ^ k + v := by
  rw [← Nat.shiftLeft_add_eq_or_of_lt h, Nat.shiftLeft_eq]

theorem quadLoop_alphabet {cs : Bytes} (h : ∀ c ∈ cs, c ∈ base64) (i packed : ℕ)
    (hi : i + cs.length ≤ 4) (rest : Bytes) :
    quadLoop i 0 packed (cs ++ rest) = quadLoop (i + cs.length) 0 (join packed cs) rest := by
  induction cs generalizing i packed with
  | nil => rfl
  | cons c cs ih =>
      have hc := h c List.mem_cons_self
      rw [List.length_cons] at hi
      rw [List.cons_append, quadLoop, if_neg (by omega), if_neg (ne_padding hc),
        if_neg (Nat.lt_irrefl 0), value_eq hc]
      dsimp only
      rw [shift_or packed (k := 6) (sextet_lt hc),
        ih (fun x hx => h x (List.mem_cons_of_mem _ hx)) _ _ (by omega), List.length_cons]
      congr 1
      omega

theorem quadLoop_padding (k i padding packed : ℕ) (hi : i + k ≤ 4) (rest : Bytes) :
    quadLoop i padding packed (List.replicate k '='.toUInt8 ++ rest) =
      quadLoop (i + k) (padding + k) (packed * 64 ^ k) rest := by
  induction k generalizing i padding packed with
  | zero => simp
  | succ k ih =>
      rw [List.replicate_succ, List.cons_append, quadLoop, if_neg (by omega), if_pos rfl,
        ih _ _ _ (by omega), Nat.shiftLeft_eq, pow_succ]
      congr 1
      · omega
      · omega
      · ring

theorem quadLoop_full (padding packed : ℕ) (rest : Bytes) :
    quadLoop 4 padding packed rest = some ⟨4, padding, packed, rest⟩ := by
  cases rest with
  | nil => rfl
  | cons c cs => rw [quadLoop, if_pos (by decide)]

/-- A whole group is read as such. -/
theorem quadLoop_group {cs : Bytes} {k : ℕ} (hlen : cs.length + k = 4)
    (h : ∀ c ∈ cs, c ∈ base64) (rest : Bytes) :
    quadLoop 0 0 0 (cs ++ (List.replicate k '='.toUInt8 ++ rest)) =
      some ⟨4, k, join 0 cs * 64 ^ k, rest⟩ := by
  rw [quadLoop_alphabet h 0 0 (by omega), quadLoop_padding _ _ _ _ (by omega), Nat.zero_add,
    Nat.zero_add, hlen, quadLoop_full]

/-- What the loop has passed over: characters of the alphabet, then padding. -/
theorem quadLoop_some {i padding packed : ℕ} {src : Bytes} {q : Quad} (hi : i ≤ 4)
    (h : quadLoop i padding packed src = some q) :
    ∃ cs k, src = cs ++ (List.replicate k '='.toUInt8 ++ q.rest) ∧ (∀ c ∈ cs, c ∈ base64) ∧
      q.i = i + cs.length + k ∧ (0 < padding → cs = []) := by
  induction src generalizing i padding packed with
  | nil =>
      obtain rfl := Option.some.inj h
      exact ⟨[], 0, rfl, by simp, rfl, fun _ => rfl⟩
  | cons c src ih =>
      rw [quadLoop] at h
      split_ifs at h with hlt heq hpad
      · subst heq
        obtain ⟨cs, k, rfl, -, hcount, hnil⟩ := ih (by omega) h
        obtain rfl := hnil (Nat.succ_pos _)
        refine ⟨[], k + 1, rfl, by simp, ?_, fun _ => rfl⟩
        rw [hcount]
        simp only [List.length_nil]
        omega
      · cases hv : value c with
        | none =>
            rw [hv] at h
            cases h
        | some v =>
            rw [hv] at h
            obtain ⟨cs, k, rfl, halph, hcount, -⟩ := ih (by omega) h
            have hc : c ∈ base64 := by
              by_contra hc
              rw [(value_spec c).2.1 hc] at hv
              cases hv
            refine ⟨c :: cs, k, rfl, ?_, ?_, fun hp => absurd hp hpad⟩
            · intro x hx
              rcases List.mem_cons.mp hx with rfl | hx
              · exact hc
              · exact halph x hx
            · rw [hcount, List.length_cons]
              omega
      · obtain rfl := Option.some.inj h
        exact ⟨[], 0, rfl, by simp, rfl, fun _ => rfl⟩

/-! ### The texts and what they stand for -/

/-- The bytes of a group with `k` characters of padding. -/
def groupBytes (packed k : ℕ) : Bytes :=
  ([packed >>> 16 &&& 0xff, packed >>> 8 &&& 0xff, packed &&& 0xff].map UInt8.ofNat).take (3 - k)

/-- Base64, group by group; only the last group may be padded. -/
inductive Decodes : Bytes → Bytes → Prop
  | nil : Decodes [] []
  | group {cs rest out : Bytes} {k : ℕ} (hlen : cs.length + k = 4) (hk : k ≤ 2)
      (h : ∀ c ∈ cs, c ∈ base64) (hlast : 0 < k → rest = []) (next : Decodes rest out) :
      Decodes (cs ++ (List.replicate k '='.toUInt8 ++ rest))
        (groupBytes (join 0 cs * 64 ^ k) k ++ out)

/-- The alphabet, with one or two padding characters at most at the very end. -/
structure Accepted (src : Bytes) : Prop where
  nonempty : src ≠ []
  length : 4 ∣ src.length
  chars : ∃ body k, k ≤ 2 ∧ src = body ++ List.replicate k '='.toUInt8 ∧ ∀ c ∈ body, c ∈ base64

theorem length_groupBytes {k : ℕ} (hk : k ≤ 2) (packed : ℕ) :
    (groupBytes packed k).length = 3 - k := by
  simp only [groupBytes, List.length_take, List.length_map, List.length_cons, List.length_nil]
  omega

theorem exists_decodes {body : Bytes} {k : ℕ} (hk : k ≤ 2) (h : ∀ c ∈ body, c ∈ base64)
    (hlen : 4 ∣ body.length + k) : ∃ out, Decodes (body ++ List.replicate k '='.toUInt8) out := by
  by_cases hshort : body.length < 4
  · by_cases hnil : body.length + k = 0
    · obtain rfl : body = [] := List.eq_nil_of_length_eq_zero (by omega)
      obtain rfl : k = 0 := by omega
      exact ⟨[], .nil⟩
    · have hfour : body.length + k = 4 := by omega
      have hgroup := Decodes.group hfour hk h (fun _ => rfl) .nil
      rw [List.append_nil] at hgroup
      exact ⟨_, hgroup⟩
  · have htake : (body.take 4).length + 0 = 4 := by
      rw [List.length_take]
      omega
    have hdrop : 4 ∣ (body.drop 4).length + k := by
      rw [List.length_drop]
      omega
    obtain ⟨out, hout⟩ := exists_decodes hk (fun c hc => h c (List.mem_of_mem_drop hc)) hdrop
    have hgroup := Decodes.group htake (Nat.zero_le 2) (fun c hc => h c (List.mem_of_mem_take hc))
      (fun hlt => absurd hlt (Nat.lt_irrefl 0)) hout
    rw [List.replicate_zero, List.nil_append, ← List.append_assoc,
      List.take_append_drop] at hgroup
    exact ⟨_, hgroup⟩
termination_by body.length

theorem Decodes.accepted {src out : Bytes} (h : Decodes src out) :
    4 ∣ src.length ∧
      ∃ body k, k ≤ 2 ∧ src = body ++ List.replicate k '='.toUInt8 ∧ ∀ c ∈ body, c ∈ base64 := by
  induction h with
  | nil => exact ⟨by simp, [], 0, by simp, rfl, by simp⟩
  | @group cs rest out k hlen hk halph hlast next ih =>
      obtain ⟨hdvd, body, k', hk', rfl, hbody⟩ := ih
      constructor
      · have hsum : (cs ++ (List.replicate k '='.toUInt8 ++
            (body ++ List.replicate k' '='.toUInt8))).length =
            4 + (body ++ List.replicate k' '='.toUInt8).length := by
          rw [List.length_append, List.length_append, List.length_replicate]
          omega
        rw [hsum]
        omega
      · by_cases hpad : 0 < k
        · rw [hlast hpad]
          exact ⟨cs, k, hk, by simp, halph⟩
        · obtain rfl : k = 0 := by omega
          refine ⟨cs ++ body, k', hk', by simp, fun c hc => ?_⟩
          rcases List.mem_append.mp hc with hc | hc
          · exact halph c hc
          · exact hbody c hc

theorem accepted_iff (src : Bytes) : Accepted src ↔ src ≠ [] ∧ ∃ out, Decodes src out := by
  constructor
  · rintro ⟨hne, hlen, body, k, hk, rfl, hbody⟩
    rw [List.length_append, List.length_replicate] at hlen
    exact ⟨hne, exists_decodes hk hbody hlen⟩
  · rintro ⟨hne, out, hout⟩
    exact ⟨hne, hout.accepted.1, hout.accepted.2⟩

/-- The number of decoded bytes; the padding is all there is of `=`. -/
theorem Decodes.length {src out : Bytes} (h : Decodes src out) :
    out.length + src.count '='.toUInt8 = 3 * src.length / 4 := by
  induction h with
  | nil => rfl
  | @group cs rest out k hlen hk halph hlast next ih =>
      have hnone : cs.count '='.toUInt8 = 0 :=
        List.count_eq_zero.mpr fun hmem => ne_padding (halph _ hmem) rfl
      rw [List.count_append, List.count_append, hnone, List.count_replicate_self,
        List.length_append, length_groupBytes hk, List.length_append, List.length_append,
        List.length_replicate]
      omega

/-! ### The decoder -/

/-- A byte is stored behind what has been written. -/
theorem store_fits (buf : Bytes) {w : ℕ} (h : w < buf.length) (b : ℕ) :
    ∃ buf', store buf w b = .ok (buf', w + 1) ∧ buf'.length = buf.length ∧
      buf'.take (w + 1) = buf.take w ++ [UInt8.ofNat b] := by
  refine ⟨buf.set w (UInt8.ofNat b), by rw [store, if_pos h], List.length_set, ?_⟩
  have hw : w < (buf.set w (UInt8.ofNat b)).length := by rwa [List.length_set]
  rw [List.take_succ_eq_append_getElem hw, List.take_set_of_le (Nat.le_refl w),
    List.getElem_set_self]

theorem storeGroup_fits (buf : Bytes) {w k : ℕ} (packed : ℕ) (rest : Bytes) (hk : k ≤ 2)
    (h : w + (3 - k) ≤ buf.length) :
    ∃ buf', storeGroup buf w ⟨4, k, packed, rest⟩ = .ok (buf', w + (3 - k)) ∧
      buf'.length = buf.length ∧
      buf'.take (w + (3 - k)) = buf.take w ++ groupBytes packed k := by
  obtain ⟨buf₁, hstore₁, hlen₁, htake₁⟩ :=
    store_fits buf (w := w) (by omega) (packed >>> 16 &&& 0xff)
  by_cases htwo : k = 2
  · subst htwo
    refine ⟨buf₁, ?_, hlen₁, htake₁⟩
    simp [storeGroup, hstore₁, ok_bind]
  obtain ⟨buf₂, hstore₂, hlen₂, htake₂⟩ :=
    store_fits buf₁ (w := w + 1) (by omega) (packed >>> 8 &&& 0xff)
  rw [htake₁] at htake₂
  by_cases hone : k = 1
  · subst hone
    refine ⟨buf₂, ?_, hlen₂.trans hlen₁, htake₂.trans (List.append_assoc _ _ _)⟩
    simp [storeGroup, hstore₁, hstore₂, ok_bind]
  obtain rfl : k = 0 := by omega
  obtain ⟨buf₃, hstore₃, hlen₃, htake₃⟩ :=
    store_fits buf₂ (w := w + 1 + 1) (by omega) (packed &&& 0xff)
  rw [htake₂] at htake₃
  refine ⟨buf₃, ?_, (hlen₃.trans hlen₂).trans hlen₁, htake₃.trans ?_⟩
  · simp [storeGroup, hstore₁, hstore₂, hstore₃, ok_bind]
  · simp [groupBytes]

/-- A text that stands for something begins with a whole group. -/
theorem Decodes.quadLoop {src out : Bytes} (h : Decodes src out) (hne : src ≠ []) :
    ∃ k n rest out', Base64.quadLoop 0 0 0 src = some ⟨4, k, n, rest⟩ ∧ k ≤ 2 ∧
      (0 < k → rest = []) ∧ Decodes rest out' ∧ out = groupBytes n k ++ out' := by
  cases h with
  | nil => exact absurd rfl hne
  | @group cs rest out k hlen hk halph hlast next =>
      exact ⟨k, _, rest, out, quadLoop_group hlen halph rest, hk, hlast, next, rfl⟩

theorem Decodes.eq_nil {out : Bytes} (h : Decodes [] out) : out = [] := by
  have hlen := h.length
  exact List.eq_nil_of_length_eq_zero (by simpa using hlen)

/-- A text stands for one byte string only. -/
theorem Decodes.unique {src out out' : Bytes} (h : Decodes src out) (h' : Decodes src out') :
    out = out' := by
  induction h generalizing out' with
  | nil => exact h'.eq_nil.symm
  | @group cs rest out k hlen hk halph hlast next ih =>
      have hread := quadLoop_group hlen halph rest
      have hne : cs ++ (List.replicate k '='.toUInt8 ++ rest) ≠ [] := by
        intro hnil
        have hzero := congrArg List.length hnil
        simp only [List.length_append, List.length_replicate, List.length_nil] at hzero
        omega
      obtain ⟨k', n, rest', o, hread', -, -, hnext, rfl⟩ := h'.quadLoop hne
      rw [hread] at hread'
      obtain ⟨-, rfl, rfl, rfl⟩ := Quad.mk.inj (Option.some.inj hread')
      rw [ih hnext]

/-- The checks behind a group that has been read, for a text that stands for something. -/
theorem Decodes.quad {src out : Bytes} {q : Quad} (h : Decodes src out) (hne : src ≠ [])
    (hq : Base64.quadLoop 0 0 0 src = some q) :
    q.i = 4 ∧ q.padding ≤ 2 ∧ (0 < q.padding → q.rest = []) ∧ ∃ out', Decodes q.rest out' := by
  obtain ⟨k, n, rest, out', hsome, hk, hlast, hnext, -⟩ := h.quadLoop hne
  rw [hq] at hsome
  obtain rfl := Option.some.inj hsome
  exact ⟨rfl, hk, hlast, out', hnext⟩

/-- A whole group that has been read is one of the alphabet with its padding. -/
theorem exists_group {src : Bytes} {q : Quad} (hq : quadLoop 0 0 0 src = some q) (hi : q.i = 4) :
    ∃ cs k, cs.length + k = 4 ∧ (∀ c ∈ cs, c ∈ base64) ∧
      src = cs ++ (List.replicate k '='.toUInt8 ++ q.rest) ∧
        q = ⟨4, k, join 0 cs * 64 ^ k, q.rest⟩ := by
  obtain ⟨cs, k, hsrc, halph, hcount, -⟩ := quadLoop_some (by omega) hq
  have hlen : cs.length + k = 4 := by omega
  have hread := quadLoop_group hlen halph q.rest
  rw [← hsrc, hq] at hread
  exact ⟨cs, k, hlen, halph, hsrc, Option.some.inj hread⟩

/-- The loop appends what the text stands for to what has been written, or gives the empty
string because there is no such thing. -/
theorem decodeLoop_cases {fuel w : ℕ} {buf src : Bytes} (hfuel : src.length ≤ fuel)
    (hroom : w + src.length * 3 / 4 ≤ buf.length) :
    (∃ out, Decodes src out ∧ decodeLoop fuel buf w src = .ok (buf.take w ++ out)) ∨
      ((∀ out, ¬Decodes src out) ∧ decodeLoop fuel buf w src = .ok []) := by
  induction fuel generalizing w buf src with
  | zero =>
      obtain rfl : src = [] := List.eq_nil_of_length_eq_zero (by omega)
      exact .inl ⟨[], .nil, by rw [decodeLoop, List.append_nil]⟩
  | succ fuel ih =>
      rw [decodeLoop]
      by_cases hnil : src = []
      · subst hnil
        exact .inl ⟨[], .nil, by rw [if_pos rfl, List.append_nil]⟩
      rw [if_neg hnil]
      cases hq : Base64.quadLoop 0 0 0 src with
      | none =>
          refine .inr ⟨fun out hout => ?_, rfl⟩
          obtain ⟨k, n, rest, out', hsome, -⟩ := hout.quadLoop hnil
          rw [hq] at hsome
          cases hsome
      | some q =>
          dsimp only
          split_ifs with hi hlast hpad
          · exact .inr ⟨fun out hout => hi (hout.quad hnil hq).1, rfl⟩
          · exact .inr ⟨fun out hout => hlast.2 ((hout.quad hnil hq).2.2.1 hlast.1), rfl⟩
          · exact .inr ⟨fun out hout => absurd (hout.quad hnil hq).2.1 (by omega), rfl⟩
          · obtain ⟨cs, k, hlen, halph, hsrc, hq'⟩ := exists_group hq (not_not.mp hi)
            have hk : q.padding = k := congrArg Quad.padding hq'
            have hsize : src.length = 4 + q.rest.length := by
              rw [hsrc, List.length_append, List.length_append, List.length_replicate]
              omega
            obtain ⟨buf', hstore, hlen', htake⟩ := storeGroup_fits buf (w := w)
              (join 0 cs * 64 ^ k) q.rest (k := k) (by omega) (by omega)
            rw [hq', hstore, ok_bind]
            dsimp only
            rcases @ih (w + (3 - k)) buf' q.rest (by omega) (by omega) with
              ⟨out, hout, hrun⟩ | ⟨hnone, hrun⟩
            · refine .inl ⟨groupBytes (join 0 cs * 64 ^ k) k ++ out, ?_, ?_⟩
              · rw [hsrc]
                refine .group hlen (by omega) halph (fun hpos => ?_) hout
                by_contra hrest
                exact hlast ⟨by omega, hrest⟩
              · rw [hrun, htake, List.append_assoc]
            · exact .inr ⟨fun out hout => by
                obtain ⟨-, -, -, o, ho⟩ := hout.quad hnil hq
                exact hnone o ho, hrun⟩

theorem base64decode_cases (src : Bytes) :
    (∃ out, Decodes src out ∧ base64decode src = .ok out) ∨
      ((∀ out, ¬Decodes src out) ∧ base64decode src = .ok []) := by
  have hcases := @decodeLoop_cases src.length 0 (List.replicate (src.length * 3 / 4) 0) src
    (Nat.le_refl src.length) (by simp)
  rwa [List.take_zero] at hcases

/-! ### The encoder -/

/-- The number that the bytes of a group make up behind `packed`. -/
def packed (n : ℕ) (group : Bytes) : ℕ := group.foldl (fun n b => n * 256 + b.toNat) n

/-- The text for a byte string, group by group. -/
def encoded : Bytes → Bytes
  | [] => []
  | [a] => encodeGroup (packed 0 [a] * 65536) 2
  | [a, b] => encodeGroup (packed 0 [a, b] * 256) 1
  | a :: b :: c :: rest => encodeGroup (packed 0 [a, b, c]) 0 ++ encoded rest

/-- The loop takes three bytes, or fewer if there are no more. -/
theorem packLoop_group {group rest : Bytes} {i : ℕ} (hi : i + group.length ≤ 3)
    (hrest : i + group.length = 3 ∨ rest = []) (n : ℕ) :
    packLoop i n (group ++ rest) = (packed n group, i + group.length, rest) := by
  induction group generalizing i n with
  | nil =>
      rw [List.nil_append]
      cases rest with
      | nil => rfl
      | cons c cs =>
          have hfull : i = 3 := by simpa using hrest
          rw [packLoop, if_neg (by omega)]
          rfl
  | cons b group ih =>
      rw [List.length_cons] at hi hrest
      have hbyte : n <<< 8 ||| b.toNat = n * 256 + b.toNat := shift_or n (k := 8) b.toNat_lt
      rw [List.cons_append, packLoop, if_pos (by omega), hbyte, ih (by omega)
        (hrest.imp_left fun h => by omega), List.length_cons, packed, packed, List.foldl_cons]
      congr 2
      omega

theorem encodeLoop_group (group rest : Bytes) (hpos : 0 < group.length) (hle : group.length ≤ 3)
    (hrest : group.length = 3 ∨ rest = []) (fuel : ℕ) (ret : Bytes) :
    encodeLoop (fuel + 1) ret (group ++ rest) =
      encodeLoop fuel (ret ++ encodeGroup (packed 0 group * 2 ^ (8 * (3 - group.length)))
        (3 - group.length)) rest := by
  have hne : group ++ rest ≠ [] := by
    intro h
    rw [(List.append_eq_nil_iff.mp h).1] at hpos
    exact absurd hpos (Nat.lt_irrefl 0)
  have hpad : (if 0 + group.length = 2 then 1 else if 0 + group.length = 1 then 2 else 0) =
      3 - group.length := by
    split_ifs <;> omega
  rw [encodeLoop, if_neg hne, packLoop_group (by omega)
    (hrest.imp_left fun h => by omega)]
  dsimp only
  rw [hpad, Nat.shiftLeft_eq, Nat.zero_add]

theorem encodeLoop_eq {fuel : ℕ} {ret src : Bytes} (hfuel : src.length ≤ fuel) :
    encodeLoop fuel ret src = ret ++ encoded src := by
  induction fuel generalizing ret src with
  | zero =>
      obtain rfl : src = [] := List.eq_nil_of_length_eq_zero (by omega)
      rw [encodeLoop, encoded, List.append_nil]
  | succ fuel ih =>
      match src with
      | [] => rw [encodeLoop, if_pos rfl, encoded, List.append_nil]
      | [a] =>
          have hround := encodeLoop_group [a] [] (by simp) (by simp)
            (.inr rfl) fuel ret
          rw [List.append_nil] at hround
          rw [hround, ih (Nat.zero_le _), encoded, encoded, List.append_nil]
          rfl
      | [a, b] =>
          have hround := encodeLoop_group [a, b] [] (by simp) (by simp)
            (.inr rfl) fuel ret
          rw [List.append_nil] at hround
          rw [hround, ih (Nat.zero_le _), encoded, encoded, List.append_nil]
          rfl
      | a :: b :: c :: rest =>
          have hshort : rest.length ≤ fuel := by
            simp only [List.length_cons] at hfuel
            omega
          have hround := encodeLoop_group [a, b, c] rest (by simp) (by simp)
            (.inl rfl) fuel ret
          have hsplit : a :: b :: c :: rest = [a, b, c] ++ rest := rfl
          rw [hsplit, hround, ih hshort, List.append_assoc]
          simp [encoded]

theorem base64encode_eq (data : Bytes) : base64encode data = encoded data :=
  encodeLoop_eq (Nat.le_refl _)

/-! ### A group in bytes and in characters -/

def sextets (n : ℕ) : List ℕ := [n / 262144 % 64, n / 4096 % 64, n / 64 % 64, n % 64]

def octets (n : ℕ) : List ℕ := [n / 65536 % 256, n / 256 % 256, n % 256]

theorem groupBytes_eq (n k : ℕ) : groupBytes n k = ((octets n).map UInt8.ofNat).take (3 - k) := by
  have hmask (m : ℕ) : m &&& 0xff = m % 256 := Nat.and_two_pow_sub_one_eq_mod m 8
  simp only [groupBytes, octets, hmask, Nat.shiftRight_eq_div_pow, Nat.reducePow]

theorem encodeGroup_eq {n k : ℕ} (hn : n < 16777216) (hk : k ≤ 2) :
    encodeGroup n k = ((sextets n).map char).take (4 - k) ++ List.replicate k '='.toUInt8 := by
  have hmask (m : ℕ) : m &&& 0x3f = m % 64 := Nat.and_two_pow_sub_one_eq_mod m 6
  have htop : n / 262144 % 64 = n / 262144 := Nat.mod_eq_of_lt (by omega)
  simp only [encodeGroup, hmask, Nat.shiftRight_eq_div_pow, sextets, htop]
  obtain rfl | rfl | rfl : k = 0 ∨ k = 1 ∨ k = 2 := by omega
  · simp
  · simp
  · simp

theorem groupBytes_eq_take (n k : ℕ) :
    groupBytes n k = ((octets n).take (3 - k)).map UInt8.ofNat := by
  rw [groupBytes_eq, List.map_take]

theorem octets_packed {group : Bytes} {k : ℕ} (hlen : group.length + k = 3) (hk : k ≤ 2) :
    (octets (packed 0 group * 256 ^ k)).take (3 - k) = group.map UInt8.toNat := by
  obtain rfl | rfl | rfl : k = 0 ∨ k = 1 ∨ k = 2 := by omega
  · obtain ⟨a, b, c, rfl⟩ := List.length_eq_three.mp hlen
    have ha := a.toNat_lt
    have hb := b.toNat_lt
    have hc := c.toNat_lt
    simp [octets, packed]
    omega
  · obtain ⟨a, b, rfl⟩ := List.length_eq_two.mp (Nat.succ_injective hlen)
    have ha := a.toNat_lt
    have hb := b.toNat_lt
    simp [octets, packed]
    omega
  · obtain ⟨a, rfl⟩ := List.length_eq_one_iff.mp (Nat.add_right_cancel hlen)
    have ha := a.toNat_lt
    simp [octets, packed]

/-- A group comes back from its number, padded as it may be. -/
theorem groupBytes_packed {group : Bytes} {k : ℕ} (hlen : group.length + k = 3) (hk : k ≤ 2) :
    groupBytes (packed 0 group * 256 ^ k) k = group := by
  have hid : UInt8.ofNat ∘ UInt8.toNat = id := funext fun b => UInt8.ofNat_toNat
  rw [groupBytes_eq_take, octets_packed hlen hk, List.map_map, hid, List.map_id]

theorem packed_lt (group : Bytes) : packed 0 group < 256 ^ group.length := by
  have hfold (n : ℕ) : packed n group < (n + 1) * 256 ^ group.length := by
    induction group generalizing n with
    | nil => simp [packed]
    | cons b group ih =>
        have hb := b.toNat_lt
        have hle : n * 256 + b.toNat + 1 ≤ (n + 1) * 256 := by omega
        calc packed n (b :: group) = packed (n * 256 + b.toNat) group := rfl
          _ < (n * 256 + b.toNat + 1) * 256 ^ group.length := ih _
          _ ≤ (n + 1) * 256 * 256 ^ group.length := Nat.mul_le_mul_right _ hle
          _ = (n + 1) * 256 ^ (b :: group).length := by rw [List.length_cons, pow_succ]; ring
  simpa using hfold 0

/-- The characters that the encoder chooses, padded as they may be, have the number back. -/
theorem join_sextets {n k : ℕ} (hn : n < 16777216) (hk : k ≤ 2) :
    join 0 (((sextets n).take (4 - k)).map char) * 64 ^ k = n / 64 ^ k * 64 ^ k := by
  have hchar (m : ℕ) : sextet (char (m % 64)) = m % 64 := sextet_char (Nat.mod_lt _ (by decide))
  obtain rfl | rfl | rfl : k = 0 ∨ k = 1 ∨ k = 2 := by omega
  · simp [join, sextets, hchar]
    omega
  · simp [join, sextets, hchar]
    omega
  · simp [join, sextets, hchar]
    omega

/-- What is left of a number when the padded bytes of its group are dropped. -/
theorem packed_groupBytes {n k : ℕ} (hn : n < 16777216) (hk : k ≤ 2) :
    packed 0 (groupBytes n k) * 256 ^ k = n / 256 ^ k * 256 ^ k := by
  rw [groupBytes_eq_take]
  obtain rfl | rfl | rfl : k = 0 ∨ k = 1 ∨ k = 2 := by omega
  · simp [octets, packed]
    omega
  · simp [octets, packed]
    omega
  · simp [octets, packed]
    omega

/-- The last character loses two bits for each character of padding. -/
def clearUnused (k : ℕ) (c : UInt8) : UInt8 := char (sextet c / 4 ^ k * 4 ^ k)

theorem clearUnused_zero {c : UInt8} (h : c ∈ base64) : clearUnused 0 c = c := by
  rw [clearUnused, pow_zero, Nat.div_one, Nat.mul_one, char_sextet h]

theorem sextets_join {init : Bytes} {c : UInt8} {k : ℕ} (hlen : init.length + 1 + k = 4)
    (hk : k ≤ 2) (h : ∀ x ∈ init ++ [c], x ∈ base64) :
    (sextets (join 0 (init ++ [c]) * 64 ^ k / 256 ^ k * 256 ^ k)).take (4 - k) =
      init.map sextet ++ [sextet c / 4 ^ k * 4 ^ k] := by
  have hc := sextet_lt (h c (by simp))
  obtain rfl | rfl | rfl : k = 0 ∨ k = 1 ∨ k = 2 := by omega
  · obtain ⟨x, y, z, rfl⟩ := List.length_eq_three.mp (Nat.succ_injective hlen)
    have hx := sextet_lt (h x (by simp))
    have hy := sextet_lt (h y (by simp))
    have hz := sextet_lt (h z (by simp))
    simp [sextets, join]
    omega
  · obtain ⟨x, y, rfl⟩ := List.length_eq_two.mp (Nat.succ_injective (Nat.succ_injective hlen))
    have hx := sextet_lt (h x (by simp))
    have hy := sextet_lt (h y (by simp))
    simp [sextets, join]
    omega
  · have hone : init.length = 1 := by omega
    obtain ⟨x, rfl⟩ := List.length_eq_one_iff.mp hone
    have hx := sextet_lt (h x (by simp))
    simp [sextets, join]
    omega

theorem join_lt {cs : Bytes} (h : ∀ c ∈ cs, c ∈ base64) : join 0 cs < 64 ^ cs.length := by
  have hfold (n : ℕ) : join n cs < (n + 1) * 64 ^ cs.length := by
    induction cs generalizing n with
    | nil => simp [join]
    | cons c cs ih =>
        have hc := sextet_lt (h c List.mem_cons_self)
        have hle : n * 64 + sextet c + 1 ≤ (n + 1) * 64 := by omega
        calc join n (c :: cs) = join (n * 64 + sextet c) cs := rfl
          _ < (n * 64 + sextet c + 1) * 64 ^ cs.length :=
            ih (fun x hx => h x (List.mem_cons_of_mem _ hx)) _
          _ ≤ (n + 1) * 64 * 64 ^ cs.length := Nat.mul_le_mul_right _ hle
          _ = (n + 1) * 64 ^ (c :: cs).length := by rw [List.length_cons, pow_succ]; ring
  simpa using hfold 0

theorem encoded_group {group rest : Bytes} {k : ℕ} (hlen : group.length + k = 3) (hk : k ≤ 2)
    (hlast : 0 < k → rest = []) :
    encoded (group ++ rest) = encodeGroup (packed 0 group * 256 ^ k) k ++ encoded rest := by
  obtain rfl | rfl | rfl : k = 0 ∨ k = 1 ∨ k = 2 := by omega
  · obtain ⟨a, b, c, rfl⟩ := List.length_eq_three.mp hlen
    rw [pow_zero, Nat.mul_one]
    rfl
  · obtain ⟨a, b, rfl⟩ := List.length_eq_two.mp (Nat.succ_injective hlen)
    rw [hlast (by decide), List.append_nil, encoded, List.append_nil]
    rfl
  · obtain ⟨a, rfl⟩ := List.length_eq_one_iff.mp (Nat.add_right_cancel hlen)
    rw [hlast (by decide), List.append_nil, encoded, List.append_nil]
    rfl

/-- The text that the encoder writes for the bytes of a group of characters. -/
theorem encoded_groupBytes {init rest : Bytes} {c : UInt8} {k : ℕ}
    (hlen : init.length + 1 + k = 4) (hk : k ≤ 2) (h : ∀ x ∈ init ++ [c], x ∈ base64)
    (hlast : 0 < k → rest = []) :
    encoded (groupBytes (join 0 (init ++ [c]) * 64 ^ k) k ++ rest) =
      init ++ clearUnused k c :: (List.replicate k '='.toUInt8 ++ encoded rest) := by
  have hjoin : join 0 (init ++ [c]) * 64 ^ k < 16777216 := by
    have hlt := join_lt h
    rw [List.length_append, List.length_singleton] at hlt
    calc join 0 (init ++ [c]) * 64 ^ k < 64 ^ (init.length + 1) * 64 ^ k :=
          Nat.mul_lt_mul_of_pos_right hlt (Nat.pow_pos (by decide))
      _ = 64 ^ (init.length + 1 + k) := (pow_add _ _ _).symm
      _ = 16777216 := by rw [hlen]; rfl
  have hfloor : join 0 (init ++ [c]) * 64 ^ k / 256 ^ k * 256 ^ k < 16777216 :=
    lt_of_le_of_lt (Nat.div_mul_le_self _ _) hjoin
  have hinit : (init.map sextet).map char = init := by
    rw [List.map_map]
    conv_rhs => rw [← List.map_id init]
    apply List.map_congr_left
    intro x hx
    exact char_sextet (h x (List.mem_append_left _ hx))
  rw [encoded_group (by rw [length_groupBytes hk]; omega) hk hlast, packed_groupBytes hjoin hk,
    encodeGroup_eq hfloor hk, ← List.map_take, sextets_join hlen hk h, List.map_append, hinit]
  simp [clearUnused]

/-! ### Round trips -/

/-- Encoding what a text stands for gives the text with the unused bits cleared. -/
theorem Decodes.encoded {src out : Bytes} (h : Decodes src out) (hne : src ≠ []) :
    ∃ init c k, src = init ++ c :: List.replicate k '='.toUInt8 ∧ c ∈ base64 ∧
      Base64.encoded out = init ++ clearUnused k c :: List.replicate k '='.toUInt8 := by
  induction h with
  | nil => exact absurd rfl hne
  | @group cs rest out k hlen hk halph hlast next ih =>
      obtain ⟨init, c, rfl⟩ : ∃ init c, cs = init ++ [c] := by
        refine ⟨cs.dropLast, cs.getLast ?_, (List.dropLast_append_getLast _).symm⟩
        rintro rfl
        simp only [List.length_nil] at hlen
        omega
      rw [List.length_append, List.length_singleton] at hlen
      have hc : c ∈ base64 := halph c (by simp)
      by_cases hrest : rest = []
      · subst hrest
        obtain rfl := next.eq_nil
        refine ⟨init, c, k, by simp, hc, ?_⟩
        rw [encoded_groupBytes hlen hk halph fun _ => rfl]
        simp [Base64.encoded]
      · obtain rfl : k = 0 := Nat.eq_zero_of_not_pos fun hpos => hrest (hlast hpos)
        obtain ⟨init', c', k', rfl, hc', henc⟩ := ih hrest
        refine ⟨init ++ c :: init', c', k', by simp, hc', ?_⟩
        rw [encoded_groupBytes hlen hk halph fun hpos => absurd hpos (Nat.lt_irrefl 0), henc,
          clearUnused_zero hc]
        simp

theorem packed_fits {group : Bytes} {k : ℕ} (hlen : group.length + k = 3) :
    packed 0 group * 256 ^ k < 16777216 := by
  calc packed 0 group * 256 ^ k < 256 ^ group.length * 256 ^ k :=
        Nat.mul_lt_mul_of_pos_right (packed_lt group) (Nat.pow_pos (by decide))
    _ = 256 ^ (group.length + k) := (pow_add _ _ _).symm
    _ = 16777216 := by rw [hlen]; rfl

theorem decodes_group (group : Bytes) {rest out : Bytes} {k : ℕ} (hlen : group.length + k = 3)
    (hk : k ≤ 2) (hlast : 0 < k → rest = []) (h : Decodes rest out) :
    Decodes (encodeGroup (packed 0 group * 256 ^ k) k ++ rest) (group ++ out) := by
  have hlt := packed_fits hlen
  have hdvd : packed 0 group * 256 ^ k / 64 ^ k * 64 ^ k = packed 0 group * 256 ^ k :=
    Nat.div_mul_cancel ((pow_dvd_pow_of_dvd (by decide) k).mul_left _)
  have hgroup := @Decodes.group (((sextets (packed 0 group * 256 ^ k)).take (4 - k)).map char) rest
    out k (by simp [sextets]; omega) hk ?_ hlast h
  · rw [join_sextets hlt hk, hdvd, groupBytes_packed hlen hk] at hgroup
    rwa [encodeGroup_eq hlt hk, ← List.map_take, List.append_assoc]
  · intro c hc
    obtain ⟨v, hv, rfl⟩ := List.mem_map.mp hc
    apply char_mem
    have hv := List.mem_of_mem_take hv
    simp only [sextets, List.mem_cons, List.not_mem_nil, or_false] at hv
    omega

theorem decodes_encoded (x : Bytes) : Decodes (encoded x) x := by
  induction x using encoded.induct with
  | case1 => exact .nil
  | case2 a => exact decodes_group [a] (k := 2) rfl (by decide) (fun _ => rfl) .nil
  | case3 a b => exact decodes_group [a, b] (k := 1) rfl (by decide) (fun _ => rfl) .nil
  | case4 a b c rest ih =>
      have hgroup := decodes_group [a, b, c] (k := 0) rfl (by decide)
        (fun h => absurd h (Nat.lt_irrefl 0)) ih
      rw [pow_zero, Nat.mul_one] at hgroup
      exact hgroup

theorem length_encodeGroup {n k : ℕ} (hn : n < 16777216) (hk : k ≤ 2) :
    (encodeGroup n k).length = 4 := by
  rw [encodeGroup_eq hn hk]
  simp [sextets]
  omega

theorem length_encoded (x : Bytes) : (encoded x).length = 4 * ((x.length + 2) / 3) := by
  have hround (group rest : Bytes) {k : ℕ} (hlen : group.length + k = 3) (hk : k ≤ 2) :
      (encodeGroup (packed 0 group * 256 ^ k) k ++ rest).length = 4 + rest.length := by
    rw [List.length_append, length_encodeGroup (packed_fits hlen) hk]
  induction x using encoded.induct with
  | case1 => rfl
  | case2 a => simpa [encoded] using hround [a] [] (k := 2) rfl (by decide)
  | case3 a b => simpa [encoded] using hround [a, b] [] (k := 1) rfl (by decide)
  | case4 a b c rest ih =>
      have hlen := hround [a, b, c] (encoded rest) (k := 0) rfl (by decide)
      rw [pow_zero, Nat.mul_one, ih] at hlen
      rw [encoded, hlen, List.length_cons, List.length_cons, List.length_cons]
      omega

/-- `base64decode` undoes `base64encode`, and the text has four characters for every three bytes
begun. -/
theorem base64_round_trip (x : Bytes) :
    base64decode (base64encode x) = .ok x ∧ (base64encode x).length = 4 * ((x.length + 2) / 3) := by
  rw [base64encode_eq]
  refine ⟨?_, length_encoded x⟩
  rcases base64decode_cases (encoded x) with ⟨out, hout, hrun⟩ | ⟨hnone, -⟩
  · rw [hrun, hout.unique (decodes_encoded x)]
  · exact absurd (decodes_encoded x) (hnone x)

/-- `base64decode` accepts exactly padded base64. On every text it returns, without a store past
the allocated bytes; the result is not empty exactly on the accepted texts, and then it has
three bytes for four characters, less the padding, and its encoding is the text with the unused
bits of the last alphabet character cleared. -/
theorem base64decode_exact (src : Bytes) :
    ∃ out, base64decode src = .ok out ∧ (out ≠ [] ↔ Accepted src) ∧
      (Accepted src →
        out.length = 3 * src.length / 4 - src.count '='.toUInt8 ∧
        ∃ init c k, src = init ++ c :: List.replicate k '='.toUInt8 ∧ c ∈ base64 ∧
          base64encode out = init ++ clearUnused k c :: List.replicate k '='.toUInt8) := by
  rcases base64decode_cases src with ⟨out, hout, hrun⟩ | ⟨hnone, hrun⟩
  · refine ⟨out, hrun, ?_, fun haccepted => ⟨?_, ?_⟩⟩
    · rw [accepted_iff]
      constructor
      · intro hne
        refine ⟨?_, out, hout⟩
        rintro rfl
        exact hne hout.eq_nil
      · rintro ⟨hne, -⟩ rfl
        -- a group has one byte at least
        obtain ⟨init, c, k, -, -, hempty⟩ := hout.encoded hne
        rw [Base64.encoded] at hempty
        exact absurd hempty.symm (by simp)
    · have hlen := hout.length
      omega
    · rw [base64encode_eq]
      exact hout.encoded haccepted.nonempty
  · have hnot : ¬Accepted src := fun haccepted =>
      absurd ((accepted_iff src).mp haccepted).2 (by rintro ⟨out, hout⟩; exact hnone out hout)
    exact ⟨[], hrun, iff_of_false (fun h => h rfl) hnot, fun h => absurd h hnot⟩

/-- A text whose last character has unused bits set stands for five bytes. -/
theorem base64decode_exact_unused_bits :
    ∃ out, base64decode (bytes "aGVsbG9=") = .ok out ∧ out ≠ [] ∧ out.length = 5 := by
  have haccepted : Accepted (bytes "aGVsbG9=") :=
    ⟨by decide, by decide, bytes "aGVsbG9", 1, by decide, by decide, by decide +kernel⟩
  obtain ⟨out, hrun, hiff, hback⟩ := base64decode_exact (bytes "aGVsbG9=")
  exact ⟨out, hrun, hiff.mpr haccepted, (hback haccepted).1⟩

end Xzmjx.Base64
