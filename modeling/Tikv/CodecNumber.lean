import Tikv.LibNumber
import Mathlib.Tactic.Linarith
import Mathlib.Tactic.Ring
/-!
# CodecNumber — numbers in keys and records (`tikv_util::codec::number`, `codec::number`)

Fixed-width big-endian numbers, ascending and descending, and varints: groups of 7 bits, the lowest first, every byte
but the last with its high bit set.  Varints have one encoder and two decoders, which differ in what they accept as a
tenth byte; both read an encoded number back and leave what follows it.
-/
namespace Tikv
namespace Codec

open Lib UInt64 Nat

inductive CodecError
  | unexpectedEof
  | overflow
  | keyLength
deriving DecidableEq, Repr

def encodeU64 (v : UInt64) : Bytes := toBe 8 v.toNat

def encodeU64Desc (v : UInt64) : Bytes := encodeU64 (~~~ v)

def decodeU64 (data : Bytes) : Except CodecError (UInt64 × Bytes) :=
  if 8 ≤ data.length then .ok (UInt64.ofNat (ofBe (data.take 8)), data.drop 8) else .error .unexpectedEof

def decodeU64Desc (data : Bytes) : Except CodecError (UInt64 × Bytes) := do
  let (v, data) ← decodeU64 data
  .ok (~~~ v, data)

/-- The loop of `encode_var_u64`.  Nine rounds leave one bit of a 64-bit number, so it never runs out of them. -/
def encodeVarLoop : Nat → UInt64 → Bytes
  | 0, v => [v.toUInt8]
  | n + 1, v => if v ≥ 0x80 then (v.toUInt8 ||| 0x80) :: encodeVarLoop n (v >>> 7) else [v.toUInt8]

def encodeVarU64 (v : UInt64) : Bytes := encodeVarLoop 9 v

def varLoop (tenth : UInt64 → UInt8 → Except CodecError UInt64) :
    Nat → Nat → UInt64 → Bytes → Except CodecError (UInt64 × Bytes)
  | _, _, _, [] => .error .unexpectedEof
  | 0, _, val, b :: bs => (tenth val b).map fun v => (v, bs)
  | n + 1, shift, val, b :: bs =>
    let val := val ||| (b.toUInt64 &&& 0x7f) <<< UInt64.ofNat shift
    if b < 0x80 then .ok (val, bs) else varLoop tenth n (shift + 7) val bs

def varShort : Nat → UInt64 → Bytes → Except CodecError (UInt64 × Bytes)
  | _, _, [] => .error .unexpectedEof
  | shift, val, b :: bs =>
    let val := val ||| (b.toUInt64 &&& 0x7f) <<< UInt64.ofNat shift
    if b < 0x80 then .ok (val, bs) else varShort (shift + 7) val bs

/-- The tenth byte in `try_decode_var_u64`: its lowest bit. -/
def tenthMasked (val : UInt64) (b : UInt8) : Except CodecError UInt64 :=
  .ok (val ||| (b.toUInt64 &&& 0x01) <<< UInt64.ofNat 63)

/-- The tenth byte in `decode_var_u64`: it must have no other bit. -/
def tenthChecked (val : UInt64) (b : UInt8) : Except CodecError UInt64 :=
  if b ≤ 1 then .ok (val ||| (b.toUInt64 &&& 0x7f) <<< UInt64.ofNat 63) else .error .overflow

def readVarU64 (buf : Bytes) : Except CodecError (UInt64 × Bytes) :=
  if 10 ≤ buf.length then varLoop tenthMasked 9 0 0 buf else varShort 0 0 buf

def decodeVarU64 (data : Bytes) : Except CodecError (UInt64 × Bytes) :=
  match data with
  | [] => varShort 0 0 []
  | b :: bs =>
    if b < 0x80 then .ok (b.toUInt64 &&& 0x7f, bs)
    else if 10 ≤ (b :: bs).length || decide ((b :: bs).getLast (List.cons_ne_nil b bs) < 0x80) then
      varLoop tenthChecked 9 0 0 (b :: bs)
    else varShort 0 0 (b :: bs)

/-! ## Fixed width -/

section

variable (v : UInt64)

@[simp] theorem length_encodeU64 : (encodeU64 v).length = 8 := length_toBe 8 v.toNat

@[simp] theorem length_encodeU64Desc : (encodeU64Desc v).length = 8 := length_encodeU64 _

theorem ofBe_encodeU64 : ofNat (ofBe (encodeU64 v)) = v := by
  unfold encodeU64
  rw [ofBe_toBe]
  apply UInt64.toNat_inj.1
  have := v.toNat_lt
  rw [toNat_ofNat']
  omega

theorem decodeU64_encode (rest : Bytes) : decodeU64 (encodeU64 v ++ rest) = .ok (v, rest) := by
  have htake : (encodeU64 v ++ rest).take 8 = encodeU64 v := List.take_left' (length_encodeU64 v)
  have hdrop : (encodeU64 v ++ rest).drop 8 = rest := List.drop_left' (length_encodeU64 v)
  unfold decodeU64
  rw [if_pos (by simp), htake, hdrop, ofBe_encodeU64]

end

theorem encodeU64_decode {bs : Bytes} (h : bs.length = 8) : encodeU64 (ofNat (ofBe bs)) = bs := by
  have hlt := ofBe_lt bs
  rw [h] at hlt
  have hnat : (ofNat (ofBe bs)).toNat = ofBe bs := by
    rw [toNat_ofNat']
    omega
  unfold encodeU64
  rw [hnat, ← h]
  exact toBe_ofBe bs

variable {v : UInt64}

theorem decodeU64_length {data rest : Bytes} (h : decodeU64 data = .ok (v, rest)) :
    rest.length ≤ data.length := by
  unfold decodeU64 at h
  split at h
  · cases h
    simp
  · cases h

/-! ## Varints -/

theorem toNat_group (b : UInt8) : (b.toUInt64 &&& 0x7f).toNat = b.toNat % 128 := by
  exact and_two_pow_sub_one_eq_mod b.toNat 7

theorem toNat_or_high (v : UInt64) : (v.toUInt8 ||| 0x80).toNat = v.toNat % 128 + 128 := by
  have htable : ∀ x < 256, x ||| 128 = x % 128 + 128 := by decide +kernel
  refine (htable _ (mod_lt _ (by omega))).trans ?_
  omega

theorem toNat_shiftRight_seven : (v >>> 7).toNat = v.toNat / 128 := by
  exact shiftRight_eq_div_pow v.toNat 7

variable {val : UInt64} {k : Nat}

theorem toNat_accumulate {b : UInt8} (hk : k ≤ 8) (hval : val.toNat < 2 ^ (7 * k)) :
    (val ||| (b.toUInt64 &&& 0x7f) <<< ofNat (7 * k)).toNat = val.toNat + b.toNat % 128 * 2 ^ (7 * k) := by
  have hpow : 2 ^ (7 * k) ≤ 2 ^ 56 := Nat.pow_le_pow_right (by omega) (by omega)
  rw [toNat_or_shiftLeft (by omega) hval, toNat_group]
  rw [toNat_group]
  calc b.toNat % 128 * 2 ^ (7 * k) ≤ 127 * 2 ^ 56 := Nat.mul_le_mul (by omega) hpow
    _ < 2 ^ 64 := by decide

section

variable {tenth : UInt64 → UInt8 → Except CodecError UInt64}
  (htenth : ∀ val (b : UInt8), b ≤ 1 → tenth val b = .ok (val ||| (b.toUInt64 &&& 0x01) <<< ofNat 63)) (rest : Bytes)
include htenth

theorem varLoop_encode_tenth (hv : v.toNat * 2 ^ 63 < 2 ^ 64) (hval : val.toNat < 2 ^ 63) :
    varLoop tenth 0 63 val (encodeVarLoop 0 v ++ rest) = .ok (ofNat (val.toNat + v.toNat * 2 ^ 63), rest) := by
  have hv2 : v.toNat < 2 := by omega
  have hb : v.toUInt8.toNat = v.toNat := by rw [toNat_toUInt8]; omega
  have hle : v.toUInt8 ≤ 1 := by
    rw [UInt8.le_iff_toNat_le, hb]
    exact le_of_lt_succ hv2
  have hbit : (v.toUInt8.toUInt64 &&& 0x01).toNat = v.toNat := by
    rw [UInt64.toNat_and, UInt8.toNat_toUInt64, hb]
    exact (and_two_pow_sub_one_eq_mod v.toNat 1).trans (mod_eq_of_lt hv2)
  have hsum : val.toNat + v.toNat * 2 ^ 63 < 2 ^ 64 := by omega
  have hor := toNat_or_shiftLeft (x := v.toUInt8.toUInt64 &&& 0x01) (k := 63) (by decide) hval (by rw [hbit]; exact hv)
  rw [encodeVarLoop, List.singleton_append, varLoop, htenth val _ hle]
  refine congrArg (fun x => Except.ok (x, rest)) (UInt64.toNat_inj.1 ?_)
  rw [hor, hbit, toNat_ofNat', mod_eq_of_lt hsum]

omit htenth in
theorem varLoop_last (n : Nat) (hk : k ≤ 8) (hv : v.toNat < 128) (hval : val.toNat < 2 ^ (7 * k)) :
    varLoop tenth (n + 1) (7 * k) val (v.toUInt8 :: rest) =
      .ok (ofNat (val.toNat + v.toNat * 2 ^ (7 * k)), rest) := by
  have hb : v.toUInt8.toNat = v.toNat := by rw [toNat_toUInt8]; omega
  have hlast : v.toUInt8 < 0x80 := by
    rw [UInt8.lt_iff_toNat_lt, hb]
    exact hv
  have hacc := toNat_accumulate (b := v.toUInt8) hk hval
  rw [hb, mod_eq_of_lt hv] at hacc
  rw [varLoop, if_pos hlast, ← hacc, UInt64.ofNat_toNat]

theorem varLoop_encode : ∀ (n k : Nat) (v val : UInt64), n + k = 9 → v.toNat * 2 ^ (7 * k) < 2 ^ 64 →
    val.toNat < 2 ^ (7 * k) → varLoop tenth n (7 * k) val (encodeVarLoop n v ++ rest) =
      .ok (ofNat (val.toNat + v.toNat * 2 ^ (7 * k)), rest)
  | 0, k, v, val, hk, hv, hval => by
    obtain rfl : k = 9 := by omega
    exact varLoop_encode_tenth htenth rest hv hval
  | n + 1, k, v, val, hk, hv, hval => by
    have hk8 : k ≤ 8 := by omega
    have hpow : 2 ^ (7 * (k + 1)) = 2 ^ (7 * k) * 128 := by rw [mul_add, Nat.pow_add]
    rw [encodeVarLoop]
    split
    · have hb : ¬ (v.toUInt8 ||| 0x80) < 0x80 := by
        rw [UInt8.lt_iff_toNat_lt, toNat_or_high]
        exact not_lt.2 (le_add_left _ _)
      have hacc := toNat_accumulate (b := v.toUInt8 ||| 0x80) hk8 hval
      rw [toNat_or_high, add_mod_right, mod_mod] at hacc
      have hmod : v.toNat % 128 < 128 := mod_lt _ (by omega)
      have hsplit : v.toNat = v.toNat % 128 + 128 * (v.toNat / 128) := (mod_add_div _ _).symm
      rw [List.cons_append, varLoop, if_neg hb]
      have ih := varLoop_encode n (k + 1) (v >>> 7)
        (val ||| ((v.toUInt8 ||| 0x80).toUInt64 &&& 0x7f) <<< ofNat (7 * k)) (by omega)
      rw [toNat_shiftRight_seven, hacc, hpow] at ih
      refine (ih ?_ ?_).trans ?_
      · calc v.toNat / 128 * (2 ^ (7 * k) * 128) = v.toNat / 128 * 128 * 2 ^ (7 * k) := by
              rw [mul_comm (2 ^ (7 * k)), mul_assoc]
          _ ≤ v.toNat * 2 ^ (7 * k) := mul_le_mul_right _ (div_mul_le_self _ _)
          _ < 2 ^ 64 := hv
      · nlinarith
      · refine congrArg (fun x => Except.ok (ofNat x, rest)) ?_
        conv_rhs => rw [hsplit]
        ring
    · rename_i hlt
      exact varLoop_last rest n hk8 (lt_of_not_ge hlt) hval

end

theorem varShort_eq (tenth : UInt64 → UInt8 → Except CodecError UInt64) : ∀ (n shift : Nat) (val : UInt64) (bs : Bytes),
    bs.length ≤ n → varShort shift val bs = varLoop tenth n shift val bs
  | _, _, _, [], _ => by rw [varShort, varLoop]
  | 0, _, _, _ :: _, h => nomatch h
  | n + 1, shift, val, b :: bs, h => by
    rw [varShort, varLoop, varShort_eq tenth n (shift + 7) _ bs (le_of_succ_le_succ h)]

theorem readVarU64_eq (buf : Bytes) : readVarU64 buf = varLoop tenthMasked 9 0 0 buf := by
  unfold readVarU64
  split
  · rfl
  · exact varShort_eq tenthMasked 9 0 0 buf (by omega)

theorem decodeVarU64_eq (data : Bytes) : decodeVarU64 data = varLoop tenthChecked 9 0 0 data := by
  cases data with
  | nil => rfl
  | cons b bs =>
    unfold decodeVarU64
    dsimp only
    split
    · rename_i hb
      rw [varLoop, if_pos hb]
      simp
    · split
      · rfl
      rename_i h
      refine varShort_eq tenthChecked 9 0 0 (b :: bs) ?_
      simp only [Bool.or_eq_true, decide_eq_true_eq] at h
      omega

theorem readVarU64_encode (v : UInt64) (rest : Bytes) : readVarU64 (encodeVarU64 v ++ rest) = .ok (v, rest) := by
  have hv := v.toNat_lt
  rw [readVarU64_eq]
  refine (varLoop_encode (fun _ _ _ => rfl) rest 9 0 v 0 rfl (by simpa using hv) (by decide)).trans ?_
  simp

theorem decodeVarU64_encode (v : UInt64) (rest : Bytes) : decodeVarU64 (encodeVarU64 v ++ rest) = .ok (v, rest) := by
  have hv := v.toNat_lt
  rw [decodeVarU64_eq]
  refine (varLoop_encode (fun val b hb => ?_) rest 9 0 v 0 rfl (by simpa using hv) (by decide)).trans ?_
  · have hb1 : b.toNat ≤ 1 := by simpa [UInt8.le_iff_toNat_le] using hb
    have hbit : b.toUInt64 &&& 0x7f = b.toUInt64 &&& 0x01 := by
      apply UInt64.toNat_inj.1
      rw [toNat_group]
      refine Eq.trans ?_ (and_two_pow_sub_one_eq_mod b.toNat 1).symm
      omega
    rw [tenthChecked, if_pos hb, hbit]
  · simp

theorem encodeVarLoop_cases : ∀ {n : Nat} {v : UInt64}, v.toNat < 128 ^ (n + 1) →
    (v.toNat < 128 ∧ ∃ b, encodeVarLoop n v = [b] ∧ b.toNat = v.toNat) ∨
    ∃ m b, n = m + 1 ∧ 128 ≤ v.toNat ∧ encodeVarLoop n v = b :: encodeVarLoop m (v >>> 7) ∧
      b.toNat = v.toNat % 128 + 128 ∧ (v >>> 7).toNat < 128 ^ (m + 1)
  | 0, v, hv => .inl ⟨by omega, _, rfl, by rw [toNat_toUInt8]; omega⟩
  | n + 1, v, hv => by
    rw [encodeVarLoop]
    split
    · rename_i hge
      refine .inr ⟨n, _, rfl, le_iff_toNat_le.1 hge, rfl, toNat_or_high v, ?_⟩
      rw [toNat_shiftRight_seven]
      exact Nat.div_lt_of_lt_mul (by rwa [mul_comm])
    · rename_i hlt
      have hlt : v.toNat < 128 := not_le.1 fun h => hlt (le_iff_toNat_le.2 h)
      exact .inl ⟨hlt, _, rfl, by rw [toNat_toUInt8]; omega⟩

theorem length_encodeVarLoop : ∀ (n : Nat) (v : UInt64), (encodeVarLoop n v).length ≤ n + 1
  | 0, _ => le_rfl
  | n + 1, v => by
    rw [encodeVarLoop]
    split
    · exact succ_le_succ (length_encodeVarLoop n _)
    · exact le_add_left _ _

theorem length_encodeVarU64 (v : UInt64) : (encodeVarU64 v).length ≤ 10 := length_encodeVarLoop 9 v

theorem varLoop_length {tenth : UInt64 → UInt8 → Except CodecError UInt64} : ∀ {n shift : Nat} {val v : UInt64}
    {bs rest : Bytes}, varLoop tenth n shift val bs = .ok (v, rest) → rest.length < bs.length
  | _, _, _, _, [], _, h => by rw [varLoop] at h; cases h
  | 0, _, val, v, b :: bs, rest, h => by
    rw [varLoop] at h
    cases ht : tenth val b with
    | error e => rw [ht] at h; cases h
    | ok x => rw [ht] at h; cases h; exact lt_succ_self _
  | n + 1, shift, val, v, b :: bs, rest, h => by
    rw [varLoop] at h
    split at h
    · cases h; exact lt_succ_self _
    · exact lt_succ_of_lt (varLoop_length h)

theorem decodeVarU64_length {data rest : Bytes} (h : decodeVarU64 data = .ok (v, rest)) :
    rest.length < data.length := by
  rw [decodeVarU64_eq] at h
  exact varLoop_length h

end Codec
end Tikv
