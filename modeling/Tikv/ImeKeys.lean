import Tikv.LibMemcmp
/-!
# ImeKeys — internal keys of the in-memory engine (`in_memory_engine::keys`)

The skip list keeps every version of a user key under an internal key: the user key, and in eight bytes the sequence number
with the type of the entry.  Internal keys sort by user key and then the newest version first (`cmp_toBytes`), so that a
value sorts before a deletion of the same sequence number.
-/
namespace Tikv
namespace Ime

open Lib

inductive ValueType
  | deletion | value
deriving DecidableEq, Repr

namespace ValueType

def toU64 : ValueType → UInt64
  | deletion => 0
  | value => 1

def ofU64 (v : UInt64) : Option ValueType :=
  if v = 0 then some deletion else if v = 1 then some value else none

end ValueType

structure InternalBytes where
  userKey : Bytes
  num : UInt64
deriving DecidableEq, Repr

structure InternalKey where
  userKey : Bytes
  vType : ValueType
  sequence : UInt64
deriving DecidableEq, Repr

def maxSequenceNumber : UInt64 := 0x00ffffffffffffff

def u64Max : UInt64 := 0xffffffffffffffff

/-- The number of a sequence number and a type; bits above the 56th are shifted out. -/
def packNum (seq : UInt64) (vType : ValueType) : UInt64 := (seq <<< 8) ||| vType.toU64

def Encodable (seq : UInt64) : Prop := seq = u64Max ∨ seq >>> 56 = 0

/-- Without the assertion, which the callers meet. -/
def encodeInternalBytes (key : Bytes) (seq : UInt64) (vType : ValueType) : InternalBytes := ⟨key, packNum seq vType⟩

/-- `VALUE_TYPE_FOR_SEEK` is `Value`. -/
def encodeSeekKey (key : Bytes) (seq : UInt64) : InternalBytes := encodeInternalBytes key seq .value

/-- `VALUE_TYPE_FOR_SEEK_FOR_PREV` is `Deletion`. -/
def encodeSeekForPrevKey (key : Bytes) (seq : UInt64) : InternalBytes := encodeInternalBytes key seq .deletion

namespace InternalBytes

def sequence (k : InternalBytes) : UInt64 := k.num >>> 8

def typeBits (k : InternalBytes) : UInt64 := k.num &&& 0xff

def decodeKey (k : InternalBytes) : Option InternalKey :=
  (ValueType.ofU64 k.typeBits).map fun vType => ⟨k.userKey, vType, k.sequence⟩

/-! ## Bytes and order -/

def toLe (v : UInt64) : Bytes := (toBe 8 v.toNat).reverse

def ofLe (b : Bytes) : Nat := ofBe b.reverse

def toBytes (k : InternalBytes) : Bytes := k.userKey ++ toLe k.num

def ofBytes (b : Bytes) : InternalBytes := ⟨b.take (b.length - 8), UInt64.ofNat (ofLe (b.drop (b.length - 8)))⟩

def cmp (a b : Bytes) : Ordering :=
  let k1 := a.take (a.length - 8)
  let k2 := b.take (b.length - 8)
  if k1 < k2 then .lt
  else if k2 < k1 then .gt
  else compare (ofLe (b.drop (b.length - 8))) (ofLe (a.drop (a.length - 8)))

def Before (a b : InternalBytes) : Prop := a.userKey < b.userKey ∨ a.userKey = b.userKey ∧ b.num < a.num

instance instDecidableBefore (a b : InternalBytes) : Decidable (a.Before b) := inferInstanceAs (Decidable (_ ∨ _))

theorem length_toLe (v : UInt64) : (toLe v).length = 8 := by
  unfold toLe
  rw [List.length_reverse, length_toBe]

theorem ofLe_toLe (v : UInt64) : ofLe (toLe v) = v.toNat := by
  unfold ofLe toLe
  rw [List.reverse_reverse, ofBe_toBe]
  exact Nat.mod_eq_of_lt v.toNat_lt

variable (k : InternalBytes)

theorem split_toBytes : k.toBytes.take (k.toBytes.length - 8) = k.userKey ∧
    ofLe (k.toBytes.drop (k.toBytes.length - 8)) = k.num.toNat := by
  have hlen : k.toBytes.length - 8 = k.userKey.length := by
    rw [toBytes, List.length_append, length_toLe]
    omega
  rw [hlen, ← ofLe_toLe]
  exact ⟨List.take_left' rfl, congrArg ofLe (List.drop_left' rfl)⟩

theorem ofBytes_toBytes : ofBytes k.toBytes = k := by
  unfold ofBytes
  rw [(split_toBytes k).1, (split_toBytes k).2, UInt64.ofNat_toNat]

theorem cmp_toBytes (a b : InternalBytes) : cmp a.toBytes b.toBytes = .lt ↔ a.Before b := by
  unfold cmp
  simp only [(split_toBytes a).1, (split_toBytes a).2, (split_toBytes b).1, (split_toBytes b).2]
  split
  · rename_i hlt
    exact iff_of_true rfl (.inl hlt)
  rename_i hnlt
  split
  · rename_i hgt
    refine iff_of_false nofun ?_
    rintro (hlt | ⟨heq, -⟩)
    · exact hnlt hlt
    · exact absurd heq (ne_of_gt hgt)
  · rename_i hngt
    have heq : a.userKey = b.userKey := le_antisymm (not_lt.1 hngt) (not_lt.1 hnlt)
    rw [Nat.compare_eq_lt]
    constructor
    · exact fun h => .inr ⟨heq, UInt64.lt_iff_toNat_lt.2 h⟩
    · rintro (hlt | ⟨-, h⟩)
      · exact absurd hlt hnlt
      · exact UInt64.lt_iff_toNat_lt.1 h

/-! ## Numbers -/

theorem toNat_sequence : k.sequence.toNat = k.num.toNat / 256 := by
  unfold sequence
  rw [UInt64.toNat_shiftRight, Nat.shiftRight_eq_div_pow]
  rfl

theorem toNat_typeBits : k.typeBits.toNat = k.num.toNat % 256 := by
  exact Nat.and_two_pow_sub_one_eq_mod k.num.toNat 8

end InternalBytes

theorem ValueType.toNat_lt (vType : ValueType) : vType.toU64.toNat < 2 := by
  cases vType <;> decide

theorem toNat_packNum (seq : UInt64) (vType : ValueType) :
    (packNum seq vType).toNat = seq.toNat % 2 ^ 56 * 256 + vType.toU64.toNat := by
  have hshift : (seq <<< 8).toNat = (seq.toNat % 2 ^ 56) <<< 8 := by
    rw [UInt64.toNat_shiftLeft, Nat.shiftLeft_eq, Nat.shiftLeft_eq]
    show seq.toNat * 256 % 2 ^ 64 = seq.toNat % 2 ^ 56 * 256
    omega
  have hlt : vType.toU64.toNat < 2 ^ 8 := lt_trans vType.toNat_lt (by decide)
  unfold packNum
  rw [UInt64.toNat_or, hshift, ← Nat.shiftLeft_add_eq_or_of_lt hlt, Nat.shiftLeft_eq]

theorem decodeKey_encode (key : Bytes) {seq : UInt64} (hseq : seq.toNat < 2 ^ 56) (vType : ValueType) :
    (encodeInternalBytes key seq vType).decodeKey = some ⟨key, vType, seq⟩ := by
  have hnum := toNat_packNum seq vType
  have ht := vType.toNat_lt
  have hbits : (encodeInternalBytes key seq vType).typeBits = vType.toU64 := by
    apply UInt64.toNat_inj.1
    rw [InternalBytes.toNat_typeBits]
    show (packNum seq vType).toNat % 256 = _
    omega
  have hsequence : (encodeInternalBytes key seq vType).sequence = seq := by
    apply UInt64.toNat_inj.1
    rw [InternalBytes.toNat_sequence]
    show (packNum seq vType).toNat / 256 = _
    omega
  unfold InternalBytes.decodeKey
  rw [hbits, hsequence]
  cases vType <;> rfl

/-- **Encoded keys** are decoded to what was encoded, and compare by user key, then by sequence number downwards, a value
before a deletion. -/
theorem internal_key_code {seq seq' : UInt64} (hseq : seq.toNat < 2 ^ 56) (hseq' : seq'.toNat < 2 ^ 56) (key key' : Bytes)
    (vType vType' : ValueType) :
    (InternalBytes.ofBytes (encodeInternalBytes key seq vType).toBytes).decodeKey = some ⟨key, vType, seq⟩ ∧
    (InternalBytes.cmp (encodeInternalBytes key seq vType).toBytes (encodeInternalBytes key' seq' vType').toBytes = .lt ↔
      key < key' ∨ key = key' ∧ (seq' < seq ∨ seq' = seq ∧ vType = .value ∧ vType' = .deletion)) := by
  rw [InternalBytes.ofBytes_toBytes, InternalBytes.cmp_toBytes]
  refine ⟨decodeKey_encode key hseq vType, or_congr_right (and_congr_right fun _ => ?_)⟩
  simp only [encodeInternalBytes, UInt64.lt_iff_toNat_lt, ← UInt64.toNat_inj, toNat_packNum, Nat.mod_eq_of_lt hseq,
    Nat.mod_eq_of_lt hseq']
  cases vType <;> cases vType' <;> simp [ValueType.toU64] <;> omega

theorem internal_key_code_seven : (InternalBytes.ofBytes (encodeInternalBytes [102] 7 .value).toBytes).decodeKey =
      some ⟨[102], .value, 7⟩ ∧ InternalBytes.cmp (encodeInternalBytes [102] 7 .value).toBytes
        (encodeInternalBytes [102] 6 .value).toBytes = .lt := by
  obtain ⟨hdecode, hcmp⟩ := internal_key_code (by decide : UInt64.toNat 7 < 2 ^ 56)
    (by decide : UInt64.toNat 6 < 2 ^ 56) [102] [102] .value .value
  exact ⟨hdecode, hcmp.2 (.inr ⟨rfl, .inl (by decide)⟩)⟩

end Ime
end Tikv
