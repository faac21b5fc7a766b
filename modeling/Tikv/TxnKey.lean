import Tikv.CodecBytes
import Tikv.TxnWrite
/-!
# TxnKey — keys of the storage and their order (`txn_types::Key`)

A `Key` holds the memcomparable encoding of the user key, to which a version's timestamp is appended in descending
order.  The order of the engine is then the order of the user keys and, within one user key, the newest version first
(`key_lt_key_iff`), and a timestamped key splits back into the two.
-/
namespace Tikv
namespace Txn

open Lib Codec

def fromRaw (key : Bytes) : Bytes := encodeBytes key

def decodeTs (key : Bytes) : Except CodecError UInt64 := decodeTsFrom key

def truncateTs (key : Bytes) : Except CodecError Bytes :=
  if key.length < 8 then .error .keyLength else .ok (key.take (key.length - 8))

def splitOnTsFor (key : Bytes) : Except CodecError (Bytes × UInt64) :=
  if key.length < 8 then .error .keyLength
  else
    let pos := key.length - 8
    (decodeU64Desc (key.drop pos)).map fun (ts, _) => (key.take pos, ts)

theorem splitOnTsFor_eq_ok {key user : Bytes} {ts : UInt64} :
    splitOnTsFor key = .ok (user, ts) ↔ truncateTs key = .ok user ∧ decodeTs key = .ok ts := by
  unfold splitOnTsFor truncateTs decodeTs decodeTsFrom
  split
  · simp
  cases h : decodeU64Desc (key.drop (key.length - 8)) with
  | error | ok => simp [h, Except.map]

theorem truncateTs_appendTs (key : Bytes) (ts : UInt64) : truncateTs (appendTs key ts) = .ok key :=
  truncateTsFor_appendTs key ts

theorem decodeTs_appendTs (key : Bytes) (ts : UInt64) : decodeTs (appendTs key ts) = .ok ts :=
  decodeTsFrom_appendTs key ts

theorem splitOnTsFor_appendTs (key : Bytes) (ts : UInt64) : splitOnTsFor (appendTs key ts) = .ok (key, ts) :=
  splitOnTsFor_eq_ok.2 ⟨truncateTs_appendTs key ts, decodeTs_appendTs key ts⟩

theorem appendTs_lt_appendTs_iff (a b : Bytes) (s t : UInt64) :
    appendTs (fromRaw a) s < appendTs (fromRaw b) t ↔ a < b ∨ a = b ∧ s > t := by
  unfold appendTs fromRaw
  rw [memcomparable_encodeBytes, encodeU64Desc_lt_iff]

/-- **Versions sort by user key, then newest first**: whatever bytes the keys hold; no encoded user key is a proper
prefix of another one; and a version's key gives back the encoded user key and the timestamp. -/
theorem key_lt_key_iff (a b : Bytes) (s t : UInt64) :
    (appendTs (fromRaw a) s < appendTs (fromRaw b) t ↔ a < b ∨ a = b ∧ s > t) ∧
    (fromRaw a <+: fromRaw b → a = b) ∧
    truncateTs (appendTs (fromRaw a) s) = .ok (fromRaw a) ∧
    decodeTs (appendTs (fromRaw a) s) = .ok s ∧
    splitOnTsFor (appendTs (fromRaw a) s) = .ok (fromRaw a, s) := by
  refine ⟨appendTs_lt_appendTs_iff a b s t, ?_, truncateTs_appendTs _ s, decodeTs_appendTs _ s,
    splitOnTsFor_appendTs _ s⟩
  exact memcomparable_encodeBytes.eq_of_isPrefix

end Txn
end Tikv
