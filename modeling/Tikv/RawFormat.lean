import Tikv.TxnKey
/-!
# RawFormat — the key and value formats of the API versions (`api_version`)

`KvFormat` has one implementation an API version.  V1 stores raw keys and values as they are, V1TTL appends the expiry to the
value, V2 encodes the key with a timestamp and appends to the value the expiry, if there is one, and a byte of flags.  What
can be stored is read back (`decodeRawValue_encode`).
-/
namespace Tikv
namespace Raw

open Lib Codec List

inductive ApiVersion
  | v1 | v1ttl | v2
deriving DecidableEq, Repr

inductive KeyMode
  | raw | txn | tidb | unknown
deriving DecidableEq, Repr

namespace ApiVersion

def isTtlEnabled : ApiVersion → Bool
  | v1 => false
  | v1ttl => true
  | v2 => true

def rawKeyPrefix : UInt8 := 0x72         -- b'r'
def txnKeyPrefix : UInt8 := 0x78         -- b'x'
def tidbMetaKeyPrefix : UInt8 := 0x6d    -- b'm'
def tidbTableKeyPrefix : UInt8 := 0x74   -- b't'

def parseKeyMode : ApiVersion → Bytes → KeyMode
  | v1, _ => .unknown
  | v1ttl, _ => .raw
  | v2, [] => .unknown
  | v2, b :: _ =>
    if b = rawKeyPrefix then .raw
    else if b = txnKeyPrefix then .txn
    else if b = tidbMetaKeyPrefix ∨ b = tidbTableKeyPrefix then .tidb
    else .unknown

/-- `encode_raw_key` and `encode_raw_key_owned`; the latter encodes the key in place.  Both assert, in debug builds
only, that a timestamp is not zero. -/
def encodeRawKey : ApiVersion → Bytes → Option UInt64 → Bytes
  | v1, userKey, _ => userKey
  | v1ttl, userKey, _ => userKey
  | v2, userKey, ts => ts.elim (Txn.fromRaw userKey) (Txn.appendTs (Txn.fromRaw userKey))

end ApiVersion

/-! ## Values -/

structure RawValue where
  userValue : Bytes
  /-- The unix time in seconds from which on the key is gone. -/
  expireTs : Option UInt64
  isDelete : Bool
deriving DecidableEq, Repr

namespace RawValue

def isTtlExpired (v : RawValue) (currentTs : UInt64) : Bool := v.expireTs.any fun expireTs => decide (expireTs ≤ currentTs)

def isValid (v : RawValue) (currentTs : UInt64) : Bool := !v.isDelete && !v.isTtlExpired currentTs

end RawValue

inductive ValueError
  | valueLength
  | valueMeta
  | codec (e : CodecError)
deriving DecidableEq, Repr

def valueMeta (expireTs isDelete : Bool) : UInt8 := (if expireTs then 1 else 0) ||| (if isDelete then 2 else 0)

def valueMetaFromBits (b : UInt8) : Option (Bool × Bool) :=
  if b &&& ~~~ 3 = 0 then some (b &&& 1 = 1, b &&& 2 = 2) else none

namespace ApiVersion

def encodeRawValue : ApiVersion → RawValue → Bytes
  | v1, v => v.userValue
  | v1ttl, v => v.userValue ++ encodeU64 (v.expireTs.getD 0)
  | v2, v => v.userValue ++ v.expireTs.elim [] encodeU64 ++ [valueMeta v.expireTs.isSome v.isDelete]

def decodeWithTtl (bytes : Bytes) : Except ValueError RawValue :=
  if bytes.length < 8 then .error .valueLength
  else match decodeU64 (bytes.drop (bytes.length - 8)) with
    | .error e => .error (.codec e)
    | .ok (expireTs, _) =>
      .ok ⟨bytes.take (bytes.length - 8), if expireTs = 0 then none else some expireTs, false⟩

/-- What `decode_raw_value` does in V2: the flags are the last byte, the expiry stands before them. -/
def decodeWithMeta (bytes : Bytes) : Except ValueError RawValue :=
  match bytes.getLast? with
  | none => .error .valueLength
  | some flags =>
    match valueMetaFromBits flags with
    | none => .error .valueMeta
    | some (false, isDelete) => .ok ⟨bytes.dropLast, none, isDelete⟩
    | some (true, isDelete) =>
      if bytes.dropLast.length < 8 then .error .valueLength
      else match decodeU64 (bytes.dropLast.drop (bytes.dropLast.length - 8)) with
        | .error e => .error (.codec e)
        | .ok (expireTs, _) => .ok ⟨bytes.dropLast.take (bytes.dropLast.length - 8), some expireTs, isDelete⟩

def decodeRawValue : ApiVersion → Bytes → Except ValueError RawValue
  | v1, bytes => .ok ⟨bytes, none, false⟩
  | v1ttl, bytes => decodeWithTtl bytes
  | v2, bytes => decodeWithMeta bytes

/-- What a version can store: V1 no expiry, neither V1 a deletion, and V1TTL uses the expiry zero for none. -/
def CanStore : ApiVersion → RawValue → Prop
  | v1, v => v.expireTs = none ∧ v.isDelete = false
  | v1ttl, v => v.expireTs ≠ some 0 ∧ v.isDelete = false
  | v2, _ => True

theorem valueMetaFromBits_valueMeta (expireTs isDelete : Bool) :
    valueMetaFromBits (valueMeta expireTs isDelete) = some (expireTs, isDelete) := by
  cases expireTs <;> cases isDelete <;> decide

theorem decodeU64_suffix (b : Bytes) (v : UInt64) :
    (b ++ encodeU64 v).length - 8 = b.length ∧ ¬ (b ++ encodeU64 v).length < 8 ∧
      decodeU64 ((b ++ encodeU64 v).drop b.length) = .ok (v, []) := by
  have hlen : (b ++ encodeU64 v).length = b.length + 8 := by
    rw [length_append, length_encodeU64]
  refine ⟨by omega, by omega, ?_⟩
  rw [drop_left' rfl]
  have := decodeU64_encode v []
  rwa [append_nil] at this

theorem decodeWithTtl_encode (b : Bytes) (expireTs : UInt64) :
    decodeWithTtl (b ++ encodeU64 expireTs) = .ok ⟨b, if expireTs = 0 then none else some expireTs, false⟩ := by
  obtain ⟨hlen, hge, hdec⟩ := decodeU64_suffix b expireTs
  unfold decodeWithTtl
  rw [if_neg hge, hlen, hdec, take_left' rfl]

theorem decodeWithMeta_encode (v : RawValue) : decodeWithMeta (encodeRawValue v2 v) = .ok v := by
  obtain ⟨b, expireTs, isDelete⟩ := v
  cases expireTs with
  | none =>
    have hcode : encodeRawValue v2 ⟨b, none, isDelete⟩ = b ++ [valueMeta false isDelete] := by simp [encodeRawValue]
    rw [hcode]
    unfold decodeWithMeta
    simp [valueMetaFromBits_valueMeta]
  | some ts =>
    have hcode : encodeRawValue v2 ⟨b, some ts, isDelete⟩ = b ++ encodeU64 ts ++ [valueMeta true isDelete] := rfl
    obtain ⟨hlen, hge, hdec⟩ := decodeU64_suffix b ts
    rw [hcode]
    unfold decodeWithMeta
    rw [getLast?_concat, dropLast_concat]
    simp only [valueMetaFromBits_valueMeta]
    rw [if_neg hge, hlen, hdec, take_left' rfl]

theorem decodeRawValue_encode (api : ApiVersion) {v : RawValue} (h : api.CanStore v) :
    api.decodeRawValue (api.encodeRawValue v) = .ok v := by
  obtain ⟨b, expireTs, isDelete⟩ := v
  cases api with
  | v1 =>
    obtain ⟨hexpire, hdelete⟩ := h
    cases hexpire
    cases hdelete
    rfl
  | v1ttl =>
    obtain ⟨hexpire, hdelete⟩ := h
    cases hdelete
    refine (decodeWithTtl_encode b (expireTs.getD 0)).trans ?_
    cases expireTs with
    | none => rfl
    | some ts =>
      have hne : ts ≠ 0 := fun h0 => hexpire (congrArg some h0)
      simp [hne]
  | v2 => exact decodeWithMeta_encode _

end ApiVersion

end Raw
end Tikv
