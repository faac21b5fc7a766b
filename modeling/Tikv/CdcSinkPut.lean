import Tikv.CdcEventBatcher
import Tikv.RawFormat
/-!
# CdcSinkPut — what a put of the raft log adds to the batch (`delegate.rs`, `logical_mutation.rs`)

`sink_put` hands a put to one of two copies of the same code.  A put of the write column family is read as a logical
mutation, which adds the record under the data prefix and what the default column family has to hold for it; a record
that gives no mutation goes a way of its own that reads its bytes by hand.  `LogicalMutation::from_write_cf` gives none
for a Lock record too, so the default column family gets an entry for every Lock (`emitsCommitted_iff`).
-/
namespace Tikv
namespace Cdc

open Lib (Bytes)
open Codec Txn PcrEventBatcher
open Raw (ApiVersion)

inductive LogicalMutation
  | put (defaultKey writeKey : Bytes) (startTs commitTs : UInt64) (shortValue : Option Bytes)
  | delete (defaultKey writeKey : Bytes) (startTs commitTs : UInt64)
  | rollback (defaultKey writeKey : Bytes) (startTs : UInt64)
deriving DecidableEq, Repr

def dataPrefix : UInt8 := 0x7a

def fromWriteCf (cfKey writeBytes : Bytes) : Except String (Option LogicalMutation) := do
  match ← recordOrPanic (Write.parse writeBytes) with
  | none => .ok none
  | some write =>
    match decodeTsFrom cfKey, truncateTsFor cfKey with
    | .ok commitTs, .ok userKey =>
      let defaultKey := dataPrefix :: (userKey ++ encodeU64 (~~~ write.startTs))
      match write.writeType with
      | .put => .ok (some (.put defaultKey cfKey write.startTs commitTs (write.shortValue.map (·.1))))
      | .delete => .ok (some (.delete defaultKey cfKey write.startTs commitTs))
      | .rollback => .ok (some (.rollback defaultKey cfKey write.startTs))
      -- "Lock / PessimisticLock: processed separately via Lock::parse in delegate"
      | .lock => .ok none
    | _, _ => .ok none

structure PutRequest where
  cf : Cf
  key : Bytes
  value : Bytes
deriving DecidableEq, Repr

structure PutState where
  pcrBatcher : Option PcrEventBatcher
  /-- keys of the puts of the default column family in this batch -/
  pcrCfDefaultKeys : List Bytes
deriving DecidableEq, Repr

abbrev OldValueCallback := Bytes → UInt64 → Except String (Option Bytes)

/-- The number the fallback reads after the type byte: groups of 7 bits, the highest first. -/
def fallbackStartTs : UInt64 → Bytes → UInt64
  | val, [] => val
  | val, b :: bs =>
    let val := val <<< 7 ||| (b &&& 0x7f).toUInt64
    if b &&& 0x80 = 0 then val else fallbackStartTs val bs

def addFallback (batcher : PcrEventBatcher) (put : PutRequest) : PcrEventBatcher :=
  let batcher := batcher.addKv (dataPrefix :: put.key) put.value .put .write
  match put.value with
  | [] => batcher
  | first :: tail =>
    if put.key.length < 8 then batcher
    else if first = 0x50 || first = 0x44 || first = 0x4c || first = 0x52 then
      let dataKey := put.key.take (put.key.length - 8)
      batcher.addKv (dataPrefix :: (dataKey ++ encodeU64 (~~~ (fallbackStartTs 0 tail)))) put.value .put .default
    else batcher.addKv put.key put.value .put .default

def strippedValue (value : Bytes) : Except String Bytes := do
  match ← recordOrPanic (Write.parse value) with
  | none => .ok value
  | some w => .ok { w with shortValue := none }.toBytes

def sinkWriteCf (oldValueCb : OldValueCallback) (defaultKeys : List Bytes) (batcher : PcrEventBatcher)
    (put : PutRequest) : Except String PcrEventBatcher := do
  match ← fromWriteCf put.key put.value with
  | some (.put defaultKey writeKey startTs _ shortValue) =>
    let seen := decide (defaultKey ∈ defaultKeys)
    let batcher := match shortValue with
      | some val => if seen then batcher else batcher.addKv defaultKey val .put .default
      | none =>
        match oldValueCb defaultKey startTs with
        | .ok (some val) => if seen then batcher else batcher.addKv defaultKey val .put .default
        | _ => batcher.addKv defaultKey [] .put .default
    let wv ← if seen then strippedValue put.value else .ok put.value
    .ok (batcher.addKv (dataPrefix :: writeKey) wv .put .write)
  | some (.delete defaultKey writeKey _ _) =>
    let batcher := batcher.addKv defaultKey [] .delete .default
    .ok (batcher.addKv (dataPrefix :: writeKey) put.value .put .write)
  | some (.rollback _ _ _) => .ok batcher
  | none => .ok (addFallback batcher put)

/-- The PCR part of `sink_raw_put`: a put of the default column family is remembered. -/
def sinkRawPutPcr (oldValueCb : OldValueCallback) (s : PutState) (put : PutRequest) : Except String PutState := do
  match s.pcrBatcher with
  | none => .ok s
  | some batcher =>
    match put.cf with
    | .lock => .ok s
    | .write =>
      let batcher ← sinkWriteCf oldValueCb s.pcrCfDefaultKeys batcher put
      .ok { s with pcrBatcher := some batcher }
    | _ =>
      let dk := dataPrefix :: put.key
      .ok ⟨some (batcher.addKv dk put.value .put .default), dk :: s.pcrCfDefaultKeys⟩

/-- The PCR part of `sink_txn_put`: a put of the default column family is not, so that no value is ever left out, or
taken out of its record, because the batch has it already. -/
def sinkTxnPutPcr (oldValueCb : OldValueCallback) (s : PutState) (put : PutRequest) : Except String PutState := do
  match s.pcrBatcher with
  | none => .ok s
  | some batcher =>
    match put.cf with
    | .lock => .ok s
    | .write =>
      let batcher ← sinkWriteCf oldValueCb s.pcrCfDefaultKeys batcher put
      .ok { s with pcrBatcher := some batcher }
    | _ => .ok { s with pcrBatcher := some (batcher.addKv (dataPrefix :: put.key) put.value .put .default) }

def sinkPut (oldValueCb : OldValueCallback) (s : PutState) (put : PutRequest) : Except String PutState :=
  if ApiVersion.v2.parseKeyMode put.key = .raw then sinkRawPutPcr oldValueCb s put else sinkTxnPutPcr oldValueCb s put

variable {oldValueCb : OldValueCallback} {s : PutState} {put : PutRequest}

/-! ## What a record may add -/

def writePut (userKey : Bytes) (commitTs : UInt64) (w : Write) : PutRequest :=
  ⟨.write, appendTs userKey commitTs, w.toBytes⟩

def defaultKeyOf (userKey : Bytes) (w : Write) : Bytes := dataPrefix :: appendTs userKey w.startTs

def entriesOf (cf : Cf) (kvs : List PcrKv) : List PcrKv := kvs.filter fun kv => decide (kv.cf = cf)

/-- **Only committed values reach the default column family**: a Put adds one Put there, a Delete at most a Delete, a
Lock or a Rollback nothing; and the record itself is what the write column family gets, except for a Rollback. -/
structure CommittedOnly (userKey : Bytes) (commitTs : UInt64) (w : Write) (added : List PcrKv) : Prop where
  cfs : ∀ kv ∈ added, kv.cf = .default ∨ kv.cf = .write
  write : entriesOf .write added = if w.writeType = .rollback then []
    else [⟨dataPrefix :: appendTs userKey commitTs, w.toBytes, .put, .write⟩]
  default : match w.writeType with
    | .put => ∃ value, entriesOf .default added = [⟨defaultKeyOf userKey w, value, .put, .default⟩]
    | .delete => entriesOf .default added = [] ∨
        ∃ value, entriesOf .default added = [⟨defaultKeyOf userKey w, value, .delete, .default⟩]
    | .lock => entriesOf .default added = []
    | .rollback => entriesOf .default added = []

def EmitsCommitted (oldValueCb : OldValueCallback) (s : PutState) (userKey : Bytes)
    (commitTs : UInt64) (w : Write) : Prop :=
  ∃ s' batcher batcher' added, sinkPut oldValueCb s (writePut userKey commitTs w) = .ok s' ∧
    s.pcrBatcher = some batcher ∧ s'.pcrBatcher = some batcher' ∧ batcher'.batch = batcher.batch ++ added ∧
    CommittedOnly userKey commitTs w added

variable {batcher : PcrEventBatcher} {userKey : Bytes} {commitTs : UInt64} {w : Write}

theorem fromWriteCf_record : fromWriteCf (appendTs userKey commitTs) w.toBytes = .ok (match w.writeType with
      | .put => some (.put (defaultKeyOf userKey w) (appendTs userKey commitTs) w.startTs commitTs
          (w.shortValue.map (·.1)))
      | .delete => some (.delete (defaultKeyOf userKey w) (appendTs userKey commitTs) w.startTs commitTs)
      | .rollback => some (.rollback (defaultKeyOf userKey w) (appendTs userKey commitTs) w.startTs)
      | .lock => none) := by
  unfold fromWriteCf
  rw [Write.parse_toBytes, decodeTsFrom_appendTs, truncateTsFor_appendTs]
  dsimp only [recordOrPanic, bind, Except.bind]
  cases w.writeType <;> rfl

theorem sinkPut_write (hs : s.pcrBatcher = some batcher) (hcf : put.cf = .write) : sinkPut oldValueCb s put =
      (sinkWriteCf oldValueCb s.pcrCfDefaultKeys batcher put).map fun b => { s with pcrBatcher := some b } := by
  have hmap : ∀ r : Except String PcrEventBatcher, (r >>= fun b => Except.ok { s with pcrBatcher := some b }) =
      r.map fun b => { s with pcrBatcher := some b } := by
    intro r
    cases r <;> rfl
  unfold sinkPut
  split
  · unfold sinkRawPutPcr
    rw [hs, hcf]; exact hmap _
  unfold sinkTxnPutPcr
  rw [hs, hcf]; exact hmap _

def committedValue (oldValueCb : OldValueCallback) (userKey : Bytes) (w : Write) : Bytes :=
  match w.shortValue with
  | some v => v.1
  | none =>
    match oldValueCb (defaultKeyOf userKey w) w.startTs with
    | .ok (some v) => v
    | _ => []

def addedBy (oldValueCb : OldValueCallback) (userKey : Bytes) (commitTs : UInt64) (w : Write) : List PcrKv :=
  let record : PcrKv := ⟨dataPrefix :: appendTs userKey commitTs, w.toBytes, .put, .write⟩
  match w.writeType with
  | .put => [⟨defaultKeyOf userKey w, committedValue oldValueCb userKey w, .put, .default⟩, record]
  | .delete => [⟨defaultKeyOf userKey w, [], .delete, .default⟩, record]
  | .rollback => []
  | .lock => [record, ⟨dataPrefix :: (userKey ++ encodeU64 (~~~ (fallbackStartTs 0 w.toBytes.tail))), w.toBytes, .put,
      .default⟩]

theorem addFallback_record : (addFallback batcher (writePut userKey commitTs w)).batch =
      batcher.batch ++ [⟨dataPrefix :: appendTs userKey commitTs, w.toBytes, .put, .write⟩,
        ⟨dataPrefix :: (userKey ++ encodeU64 (~~~ (fallbackStartTs 0 w.toBytes.tail))), w.toBytes, .put, .default⟩] := by
  have hbytes : w.toBytes = w.writeType.toU8 :: w.toBytes.tail := rfl
  have hkey : (appendTs userKey commitTs).length = userKey.length + 8 := by simp [appendTs]
  have htake : (appendTs userKey commitTs).take (userKey.length + 8 - 8) = userKey := by
    exact List.take_left' rfl
  unfold addFallback writePut
  rw [hbytes]
  dsimp only [List.tail_cons]
  rw [if_neg (by omega), if_pos (by cases w.writeType <;> decide), hkey, htake]
  simp [addKv]

/-- **What a record's put adds to the batch** when the batch has no put of its value yet. -/
theorem sinkWriteCf_record {keys : List Bytes} (hseen : defaultKeyOf userKey w ∉ keys) :
    ∃ batcher', sinkWriteCf oldValueCb keys batcher (writePut userKey commitTs w) = .ok batcher' ∧
      batcher'.batch = batcher.batch ++ addedBy oldValueCb userKey commitTs w := by
  have hfrom : fromWriteCf (appendTs userKey commitTs) w.toBytes = _ := fromWriteCf_record
  unfold sinkWriteCf addedBy
  simp only [writePut] at *
  rw [hfrom]
  cases hw : w.writeType with
  | put =>
    dsimp only [bind, Except.bind]
    rw [decide_eq_false hseen]
    unfold committedValue
    cases w.shortValue with
    | some v => simp [addKv]
    | none =>
      cases oldValueCb (defaultKeyOf userKey w) w.startTs with
      | error e => simp [addKv]
      | ok o => cases o <;> simp [addKv]
  | delete => exact ⟨_, rfl, by simp [addKv]⟩
  | rollback => exact ⟨_, rfl, (List.append_nil _).symm⟩
  | lock => exact ⟨_, rfl, addFallback_record⟩

theorem emitsCommitted_iff_added (hs : s.pcrBatcher.isSome) (hseen : defaultKeyOf userKey w ∉ s.pcrCfDefaultKeys) :
    EmitsCommitted oldValueCb s userKey commitTs w ↔
      CommittedOnly userKey commitTs w (addedBy oldValueCb userKey commitTs w) := by
  obtain ⟨batcher, hb⟩ := Option.isSome_iff_exists.1 hs
  obtain ⟨batcher', hsink, hbatch⟩ := sinkWriteCf_record hseen
  have hput : sinkPut oldValueCb s (writePut userKey commitTs w) = _ := sinkPut_write hb rfl
  rw [hsink] at hput
  constructor
  · rintro ⟨s', b, b', added, hok, hsb, hsb', hadd, hc⟩
    rw [hput] at hok
    cases hok
    cases hsb'
    rw [hb] at hsb
    cases hsb
    rw [hbatch] at hadd
    rwa [List.append_cancel_left hadd]
  · intro hc
    exact ⟨_, batcher, batcher', _, hput, hb, rfl, hbatch, hc⟩

/-- **Either copy emits committed values only, except for Lock records.** -/
theorem emitsCommitted_iff (oldValueCb : OldValueCallback) (s : PutState) (hs : s.pcrBatcher.isSome)
    (userKey : Bytes) (commitTs : UInt64) (w : Write) (hseen : defaultKeyOf userKey w ∉ s.pcrCfDefaultKeys) :
    EmitsCommitted oldValueCb s userKey commitTs w ↔ w.writeType ≠ .lock := by
  rw [emitsCommitted_iff_added hs hseen]
  constructor
  · intro hc hw
    have hdefault := hc.default
    simp only [hw, addedBy] at hdefault
    exact nomatch hdefault
  · intro hw
    cases ht : w.writeType with
    | lock => exact absurd ht hw
    | _ => exact ⟨by simp [addedBy, ht], by simp [addedBy, ht, entriesOf], by simp [addedBy, ht, entriesOf]⟩

theorem emitsCommitted_put : EmitsCommitted (fun _ _ => .ok none) ⟨some (.new 1024 150 0), []⟩ [0x74] 20
      (.new .put 10 (some ⟨[0x61], by decide⟩)) :=
  (emitsCommitted_iff (fun _ _ => .ok none) ⟨some (.new 1024 150 0), []⟩ rfl [0x74] 20
    (.new .put 10 (some ⟨[0x61], by decide⟩)) (by simp)).2 (by decide)

/-- **A Lock record gets an entry in the default column family**, its own bytes as the value. -/
theorem not_emitsCommitted_lock :
    ¬ EmitsCommitted (fun _ _ => .ok none) ⟨some (.new 1024 150 0), []⟩ [0x74] 20 (.new .lock 10 none) := by
  rw [emitsCommitted_iff_added rfl (by simp)]
  intro hc
  exact nomatch hc.default

end Cdc
end Tikv
