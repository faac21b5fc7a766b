import Tikv.CodecNumber
/-!
# CodecVarint — the two varint codecs and the length of a varint (`tikv_util::codec::number`, `codec::number`)

Both crates encode a number to the same bytes and read it back from them, whatever follows, and `codec` finds the length
of the encoding in front without decoding it.  So no encoding is a proper prefix of another (`varint_agree`).  A signed
number is encoded with its sign in the lowest bit.
-/
namespace Tikv
namespace Codec

open Lib

/-- `codec`'s loop, which cuts the group before it sets the high bit. -/
def NumberCodec.encodeVarLoop : Nat → UInt64 → Bytes
  | 0, v => [v.toUInt8]
  | n + 1, v =>
    if v ≥ 0x80 then (0x80 ||| (v &&& 0x7f).toUInt8) :: NumberCodec.encodeVarLoop n (v >>> 7) else [v.toUInt8]

def NumberCodec.encodeVarU64 (v : UInt64) : Bytes := NumberCodec.encodeVarLoop 9 v

def zigZag (v : Int64) : UInt64 := if v < 0 then ~~~ (v.toUInt64 <<< 1) else v.toUInt64 <<< 1

def unZigZag (uv : UInt64) : Int64 := if uv &&& 1 = 0 then (uv >>> 1).toInt64 else (~~~ (uv >>> 1)).toInt64

def encodeVarI64 (v : Int64) : Bytes := encodeVarU64 (zigZag v)

def NumberCodec.encodeVarI64 (v : Int64) : Bytes := NumberCodec.encodeVarU64 (zigZag v)

def decodeVarI64 (data : Bytes) : Except CodecError (Int64 × Bytes) :=
  (decodeVarU64 data).map fun r => (unZigZag r.1, r.2)

def readVarI64 (buf : Bytes) : Except CodecError (Int64 × Bytes) := (readVarU64 buf).map fun r => (unZigZag r.1, r.2)

def varIntLenFast : Nat → Bytes → Nat
  | n + 1, b :: bs => if b < 0x80 then 1 else varIntLenFast n bs + 1
  | _, _ => 1

def varIntLenSlow : Bytes → Nat
  | [] => 0
  | b :: bs => if b < 0x80 then 1 else varIntLenSlow bs + 1

def getFirstEncodedVarIntLen (buf : Bytes) : Nat := if 10 ≤ buf.length then varIntLenFast 9 buf else varIntLenSlow buf

theorem numberCodec_encodeVarLoop : ∀ (n : Nat) (v : UInt64), NumberCodec.encodeVarLoop n v = encodeVarLoop n v
  | 0, _ => rfl
  | n + 1, v => by
    have hbyte : 0x80 ||| (v &&& 0x7f).toUInt8 = v.toUInt8 ||| 0x80 := by
      have htable : ∀ x < 256, 128 ||| (x % 128) = x % 128 + 128 := by decide +kernel
      apply UInt8.toNat_inj.1
      rw [toNat_or_high, UInt8.toNat_or, UInt64.toNat_toUInt8]
      have hlow : v.toNat &&& 127 = v.toNat % 128 := Nat.and_two_pow_sub_one_eq_mod v.toNat 7
      have hmod : v.toNat % 128 % 256 = v.toNat % 128 := Nat.mod_eq_of_lt (by omega)
      have h := htable (v.toNat % 128) (by omega)
      rw [Nat.mod_mod] at h
      exact (congrArg (128 ||| · % 256) hlow).trans ((congrArg (128 ||| ·) hmod).trans h)
    rw [NumberCodec.encodeVarLoop, encodeVarLoop, hbyte, numberCodec_encodeVarLoop n]

theorem toInt_eq (v : Int64) : v.toInt =
    if v.toUInt64.toNat < 2 ^ 63 then (v.toUInt64.toNat : Int) else v.toUInt64.toNat - 2 ^ 64 := by
  have hint : v.toInt = v.toUInt64.toBitVec.toInt := rfl
  show (if 2 * v.toUInt64.toNat < 2 ^ 64 then _ else _) = _
  split <;> split <;> first | rfl | omega

theorem lt_zero_iff (v : Int64) : v < 0 ↔ 2 ^ 63 ≤ v.toUInt64.toNat := by
  have hv := v.toUInt64.toNat_lt
  rw [Int64.lt_iff_toInt_lt, toInt_eq]
  split <;> simp <;> omega

theorem unZigZag_zigZag (v : Int64) : unZigZag (zigZag v) = v := by
  have hv := v.toUInt64.toNat_lt
  have hshl : (v.toUInt64 <<< 1).toNat = 2 * v.toUInt64.toNat % 2 ^ 64 := by
    rw [UInt64.toNat_shiftLeft, Nat.shiftLeft_eq]
    show v.toUInt64.toNat * 2 % 2 ^ 64 = _
    omega
  have hshr : ∀ u : UInt64, (u >>> 1).toNat = u.toNat / 2 := fun u => Nat.shiftRight_eq_div_pow u.toNat 1
  have hnot : ∀ u : UInt64, (~~~ u).toNat = 2 ^ 64 - 1 - u.toNat := UInt64.toNat_not
  have hbit : ∀ u : UInt64, u &&& 1 = 0 ↔ u.toNat % 2 = 0 := by
    intro u
    rw [← UInt64.toNat_inj]
    exact (congrArg (· = 0) (Nat.and_two_pow_sub_one_eq_mod u.toNat 1)).to_iff
  have hread : ∀ u : UInt64, u.toNat = v.toUInt64.toNat → u.toInt64 = v := by
    intro u hu
    rw [UInt64.toNat_inj.1 hu, Int64.toInt64_toUInt64]
  unfold unZigZag zigZag
  by_cases hneg : v < 0
  · have hlow := (lt_zero_iff v).1 hneg
    rw [if_pos hneg, if_neg (by rw [hbit, hnot]; omega)]
    exact hread _ (by rw [hnot, hshr, hnot]; omega)
  · have hlow := mt (lt_zero_iff v).2 hneg
    rw [if_neg hneg, if_pos (by rw [hbit]; omega)]
    exact hread _ (by rw [hshr]; omega)

theorem readVarI64_encode (v : Int64) (rest : Bytes) : readVarI64 (encodeVarI64 v ++ rest) = .ok (v, rest) := by
  simp [readVarI64, encodeVarI64, readVarU64_encode, Except.map, unZigZag_zigZag]

theorem varIntLen_encode (rest : Bytes) : ∀ (n : Nat) {v : UInt64}, v.toNat < 128 ^ (n + 1) →
    varIntLenFast n (encodeVarLoop n v ++ rest) = (encodeVarLoop n v).length ∧
      varIntLenSlow (encodeVarLoop n v ++ rest) = (encodeVarLoop n v).length := by
  intro n
  induction n with
  | zero =>
    intro v hv
    rcases encodeVarLoop_cases hv with ⟨hlt, b, henc, hb⟩ | ⟨m, _, hm, _⟩
    · have hb' : b < 0x80 := UInt8.lt_iff_toNat_lt.2 (hb ▸ hlt)
      simp [henc, varIntLenFast, varIntLenSlow, hb']
    · cases hm
  | succ n ih =>
    intro v hv
    rcases encodeVarLoop_cases hv with ⟨hlt, b, henc, hb⟩ | ⟨m, b, hm, _, henc, hb, hv'⟩
    · have hb' : b < 0x80 := UInt8.lt_iff_toNat_lt.2 (hb ▸ hlt)
      simp [henc, varIntLenFast, varIntLenSlow, hb']
    cases hm
    have hb' : ¬ b < 0x80 := by
      rw [UInt8.lt_iff_toNat_lt, hb]
      exact not_lt.2 (Nat.le_add_left _ _)
    simp [henc, varIntLenFast, varIntLenSlow, hb', ih hv']

/-- **The codecs agree on what was encoded**, for unsigned and signed numbers. -/
theorem varint_agree (rest : Bytes) :
    (∀ v : UInt64, NumberCodec.encodeVarU64 v = encodeVarU64 v ∧ (encodeVarU64 v).length ≤ 10 ∧
      decodeVarU64 (encodeVarU64 v ++ rest) = .ok (v, rest) ∧ readVarU64 (encodeVarU64 v ++ rest) = .ok (v, rest) ∧
      getFirstEncodedVarIntLen (encodeVarU64 v ++ rest) = (encodeVarU64 v).length ∧
      ∀ w, encodeVarU64 v <+: encodeVarU64 w → v = w) ∧
    ∀ v : Int64, NumberCodec.encodeVarI64 v = encodeVarI64 v ∧ (encodeVarI64 v).length ≤ 10 ∧
      decodeVarI64 (encodeVarI64 v ++ rest) = .ok (v, rest) ∧ readVarI64 (encodeVarI64 v ++ rest) = .ok (v, rest) ∧
      getFirstEncodedVarIntLen (encodeVarI64 v ++ rest) = (encodeVarI64 v).length ∧
      ∀ w, encodeVarI64 v <+: encodeVarI64 w → v = w := by
  -- a signed number is encoded as the unsigned one its zigzag is
  refine (and_iff_left_of_imp fun hu v => ?_).2 fun v => ?_
  · obtain ⟨henc, hlen, hdec, -, hfirst, hprefix⟩ := hu (zigZag v)
    refine ⟨henc, hlen, ?_, readVarI64_encode v rest, hfirst, fun w hw => ?_⟩
    · simp [decodeVarI64, encodeVarI64, hdec, Except.map, unZigZag_zigZag]
    · rw [← unZigZag_zigZag v, hprefix _ hw, unZigZag_zigZag]
  · refine ⟨numberCodec_encodeVarLoop 9 v, length_encodeVarU64 v, decodeVarU64_encode v rest, readVarU64_encode v rest,
      ?_, fun w ⟨s, hs⟩ => ?_⟩
    · obtain ⟨hfast, hslow⟩ := varIntLen_encode rest 9 (v.toNat_lt.trans (by decide))
      unfold getFirstEncodedVarIntLen
      split
      · exact hfast
      · exact hslow
    · have hw := decodeVarU64_encode w []
      rw [List.append_nil, ← hs, decodeVarU64_encode] at hw
      cases hw
      rfl

end Codec
end Tikv
