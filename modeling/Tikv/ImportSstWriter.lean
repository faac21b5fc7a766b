import Tikv.LibOverlay
import Tikv.LibRun
import Tikv.RawFormat
/-!
# ImportSstWriter — SST files written from pairs (`sst_importer::sst_writer`)

A client streams batches of pairs into a writer and gets back the metas of the files to ingest.  `TxnSstWriter` writes one
committed version a pair: a record in the write column family whose start timestamp is the commit timestamp, and a value too
long for the record in the default one.  `RawSstWriter` writes the raw key and value of the API version.  What the writers
have written after a run of accepted batches is `TxnSstWriter.writeAll_spec` and `RawSstWriter.writeAll_spec`.

The byte counters and durations are left out, as only the log and the metrics read them.
-/
namespace Tikv
namespace Import

open Lib Codec Raw

inductive PairOp
  | put | delete
deriving DecidableEq, Repr

structure Pair where
  key : Bytes
  value : Bytes
  op : PairOp
deriving DecidableEq, Repr

inductive SstWriterType
  | txn | raw
deriving DecidableEq, Repr

inductive Error
  | invalidKeyMode (writer : SstWriterType) (api : ApiVersion) (key : Bytes)
  | ttlNotEnabled
  | codec (e : CodecError)
deriving DecidableEq, Repr

inductive CfName
  | default | write
deriving DecidableEq, Repr

/-- What was put at a key of the file, or that it is deleted there, in the order it was written. -/
abbrev SstFile := List (Bytes × Option Bytes)

def dataKey (key : Bytes) : Bytes := 0x7a :: key

theorem dataKey_inj {a b : Bytes} : dataKey a = dataKey b ↔ a = b := by
  unfold dataKey
  simp

theorem dataKey_lt_iff {a b : Bytes} : dataKey a < dataKey b ↔ a < b := by
  unfold dataKey
  simp

/-! ## Transactional pairs -/

structure WriteBatch where
  commitTs : UInt64
  pairs : List Pair

structure TxnSstWriter where
  defaultFile : SstFile
  defaultEntries : Nat
  writeFile : SstFile
  writeEntries : Nat
  apiVersion : ApiVersion

namespace TxnSstWriter

def new (apiVersion : ApiVersion) : TxnSstWriter := ⟨[], 0, [], 0, apiVersion⟩

def checkApiVersion (w : TxnSstWriter) (key : Bytes) : Except Error Unit :=
  let mode := w.apiVersion.parseKeyMode key
  if w.apiVersion = .v2 ∧ mode ≠ .txn ∧ mode ≠ .tidb then .error (.invalidKeyMode .txn w.apiVersion key) else .ok ()

def shortValue? (value : Bytes) : Option Txn.ShortValue := if h : value.length ≤ 255 then some ⟨value, h⟩ else none

def putDefault (w : TxnSstWriter) (k value : Bytes) : TxnSstWriter :=
  { w with defaultFile := w.defaultFile ++ [(k, some value)], defaultEntries := w.defaultEntries + 1 }

def putWrite (w : TxnSstWriter) (k : Bytes) (record : Txn.Write) : TxnSstWriter :=
  { w with writeFile := w.writeFile ++ [(k, some record.toBytes)], writeEntries := w.writeEntries + 1 }

def put (w : TxnSstWriter) (key value : Bytes) (op : PairOp) : Except Error TxnSstWriter :=
  let k := dataKey key
  match Txn.splitOnTsFor key with
  | .error e => .error (.codec e)
  | .ok (_, commitTs) =>
    match op, shortValue? value with
    | .delete, _ => .ok (w.putWrite k (.new .delete commitTs none))
    | .put, some short => .ok (w.putWrite k (.new .put commitTs (some short)))
    | .put, none => .ok ((w.putDefault k value).putWrite k (.new .put commitTs none))

def writePair (commitTs : UInt64) (w : TxnSstWriter) (m : Pair) : Except Error TxnSstWriter :=
  match w.checkApiVersion m.key with
  | .error e => .error e
  | .ok _ => w.put (Txn.appendTs (Txn.fromRaw m.key) commitTs) m.value m.op

/-- A batch that is refused ends the stream; the writer is dropped then. -/
def write (w : TxnSstWriter) (batch : WriteBatch) : Except Error TxnSstWriter :=
  batch.pairs.foldlM (writePair batch.commitTs) w

def finish (w : TxnSstWriter) : List (CfName × SstFile) :=
  (if 0 < w.defaultEntries then [(.default, w.defaultFile)] else []) ++
    if 0 < w.writeEntries then [(.write, w.writeFile)] else []

def writeAll (w : TxnSstWriter) (batches : List WriteBatch) : Except Error TxnSstWriter := batches.foldlM write w

end TxnSstWriter

structure TxnPair where
  commitTs : UInt64
  pair : Pair

open TxnPair

def WriteBatch.txnPairs (batch : WriteBatch) : List TxnPair := batch.pairs.map (TxnPair.mk batch.commitTs)

def txnPairs (batches : List WriteBatch) : List TxnPair := batches.flatMap WriteBatch.txnPairs

namespace TxnPair

def encoded (p : TxnPair) : Bytes := Txn.appendTs (Txn.fromRaw p.pair.key) p.commitTs

def isLong (p : TxnPair) : Bool := p.pair.op = .put && (TxnSstWriter.shortValue? p.pair.value).isNone

def record (p : TxnPair) : Txn.Write :=
  match p.pair.op with
  | .delete => .new .delete p.commitTs none
  | .put => .new .put p.commitTs (TxnSstWriter.shortValue? p.pair.value)

def defaultEntries (p : TxnPair) : SstFile := if p.isLong then [(dataKey p.encoded, some p.pair.value)] else []

def writeEntries (p : TxnPair) : SstFile := [(dataKey p.encoded, some p.record.toBytes)]

end TxnPair

namespace TxnSstWriter

def add (w : TxnSstWriter) (ps : List TxnPair) : TxnSstWriter :=
  { w with
    defaultFile := w.defaultFile ++ ps.flatMap TxnPair.defaultEntries
    defaultEntries := w.defaultEntries + (ps.flatMap TxnPair.defaultEntries).length
    writeFile := w.writeFile ++ ps.flatMap TxnPair.writeEntries
    writeEntries := w.writeEntries + (ps.flatMap TxnPair.writeEntries).length }

variable {w w' : TxnSstWriter}

theorem add_append (ps qs : List TxnPair) : w.add (ps ++ qs) = (w.add ps).add qs := by
  unfold add
  simp [add_assoc]

theorem put_eq (p : TxnPair) : w.put p.encoded p.pair.value p.pair.op = .ok (w.add [p]) := by
  obtain ⟨commitTs, key, value, op⟩ := p
  unfold put encoded
  rw [Txn.splitOnTsFor_appendTs]
  cases op with
  | delete => simp [add, putWrite, TxnPair.defaultEntries, TxnPair.writeEntries, isLong, record, encoded]
  | put =>
    cases hshort : shortValue? value with
    | some short => simp [add, putWrite, TxnPair.defaultEntries, TxnPair.writeEntries, isLong, record, encoded, hshort]
    | none => simp [add, putWrite, putDefault, TxnPair.defaultEntries, TxnPair.writeEntries, isLong,
        record, encoded, hshort]

theorem writePair_spec {commitTs : UInt64} {m : Pair} (h : writePair commitTs w m = .ok w') :
    w' = w.add [⟨commitTs, m⟩] := by
  unfold writePair at h
  split at h
  · cases h
  exact (Except.ok.inj ((put_eq ⟨commitTs, m⟩).symm.trans h)).symm

theorem add_nil : w.add [] = w := by
  simp [add]

theorem write_spec {batch : WriteBatch} (h : w.write batch = .ok w') : w' = w.add batch.txnPairs := by
  have hrun := foldlM_relates (R := fun w ps w' => w' = add w ps) (g := fun m => [TxnPair.mk batch.commitTs m])
    (fun _ => add_nil.symm) (fun _ _ _ _ _ h₁ h₂ => by rw [h₂, h₁, add_append]) (fun _ _ _ => writePair_spec) h
  rw [hrun, WriteBatch.txnPairs, List.map_eq_flatMap]

theorem writeAll_spec {batches : List WriteBatch} (h : w.writeAll batches = .ok w') :
    w' = w.add (txnPairs batches) :=
  foldlM_relates (f := write) (g := WriteBatch.txnPairs) (R := fun w ps w' => w' = add w ps) (fun _ => add_nil.symm)
    (fun _ _ _ _ _ h₁ h₂ => by rw [h₂, h₁, add_append]) (fun _ _ _ => write_spec) h

end TxnSstWriter

/-! ## Raw pairs -/

structure RawWriteBatch where
  ts : UInt64
  ttl : UInt64
  pairs : List Pair
  /-- `ttl_current_ts` when the batch is written. -/
  now : UInt64

/-- `ttl_to_expire_ts`, at the time `now`; the sum saturates. -/
def ttlToExpireTs (ttl now : UInt64) : Option UInt64 :=
  if ttl = 0 then none else some (UInt64.ofNat (min (ttl.toNat + now.toNat) (2 ^ 64 - 1)))

structure RawSstWriter where
  default : SstFile
  defaultEntries : Nat
  defaultDeletes : Nat
  apiVersion : ApiVersion

namespace RawSstWriter

def new (apiVersion : ApiVersion) : RawSstWriter := ⟨[], 0, 0, apiVersion⟩

def put (w : RawSstWriter) (key value : Bytes) (op : PairOp) : RawSstWriter :=
  let k := dataKey key
  match op with
  | .delete => { w with default := w.default ++ [(k, none)], defaultDeletes := w.defaultDeletes + 1 }
  | .put => { w with default := w.default ++ [(k, some value)], defaultEntries := w.defaultEntries + 1 }

def checkApiVersion (w : RawSstWriter) (key : Bytes) : Except Error Unit :=
  let mode := w.apiVersion.parseKeyMode key
  if w.apiVersion = .v2 ∧ mode ≠ .raw then .error (.invalidKeyMode .raw w.apiVersion key) else .ok ()

def writePair (ts : UInt64) (expireTs : Option UInt64) (w : RawSstWriter) (m : Pair) : Except Error RawSstWriter :=
  match w.checkApiVersion m.key with
  | .error e => .error e
  | .ok _ =>
    let key := w.apiVersion.encodeRawKey m.key (some ts)
    match m.op with
    | .put => .ok (w.put key (w.apiVersion.encodeRawValue ⟨m.value, expireTs, false⟩) .put)
    | .delete => .ok (w.put key [] .delete)

def write (w : RawSstWriter) (batch : RawWriteBatch) : Except Error RawSstWriter :=
  if batch.ttl = 0 then batch.pairs.foldlM (writePair batch.ts none) w
  else if w.apiVersion.isTtlEnabled then
    batch.pairs.foldlM (writePair batch.ts (ttlToExpireTs batch.ttl batch.now)) w
  else .error .ttlNotEnabled

def finish (w : RawSstWriter) : List (CfName × SstFile) :=
  if w.defaultEntries = 0 then [] else [(.default, w.default)]

def writeAll (w : RawSstWriter) (batches : List RawWriteBatch) : Except Error RawSstWriter := batches.foldlM write w

end RawSstWriter

structure RawPair where
  ts : UInt64
  expireTs : Option UInt64
  pair : Pair

open RawPair

def RawWriteBatch.rawPairs (batch : RawWriteBatch) : List RawPair :=
  batch.pairs.map (RawPair.mk batch.ts (ttlToExpireTs batch.ttl batch.now))

def rawPairs (batches : List RawWriteBatch) : List RawPair := batches.flatMap RawWriteBatch.rawPairs

namespace RawPair

variable (api : ApiVersion) (p : RawPair)

def encoded : Bytes := api.encodeRawKey p.pair.key (some p.ts)

def rawValue : RawValue := ⟨p.pair.value, p.expireTs, false⟩

def isPut : Bool := p.pair.op = .put

def entry : Bytes × Option Bytes :=
  (dataKey (p.encoded api), if p.isPut then some (api.encodeRawValue p.rawValue) else none)

/-- What the writer accepts: in V2 a raw key, and an expiry only where there is one. -/
structure Accepted : Prop where
  mode : api = .v2 → api.parseKeyMode p.pair.key = .raw
  expire : api.CanStore p.rawValue

end RawPair

namespace RawSstWriter

def add (w : RawSstWriter) (ps : List RawPair) : RawSstWriter :=
  { w with
    default := w.default ++ ps.map (RawPair.entry w.apiVersion)
    defaultEntries := w.defaultEntries + ps.countP RawPair.isPut
    defaultDeletes := w.defaultDeletes + ps.countP fun p => !p.isPut }

theorem add_append (w : RawSstWriter) (ps qs : List RawPair) : w.add (ps ++ qs) = (w.add ps).add qs := by
  unfold add
  simp [add_assoc]

theorem ttlToExpireTs_ne_zero (ttl now : UInt64) : ttlToExpireTs ttl now ≠ some 0 := by
  unfold ttlToExpireTs
  split
  · nofun
  rename_i hne
  have hpos : 0 < ttl.toNat := pos_of_ne_zero fun h => hne (UInt64.toNat_inj.1 h)
  intro h
  have hzero := congrArg UInt64.toNat (Option.some.inj h)
  rw [UInt64.toNat_ofNat', UInt64.toNat_zero] at hzero
  omega

variable {w w' : RawSstWriter} {expireTs : Option UInt64} {ts : UInt64}

theorem writePair_spec {m : Pair} (h : writePair ts expireTs w m = .ok w') : w' = w.add [⟨ts, expireTs, m⟩] ∧
      (w.apiVersion = .v2 → w.apiVersion.parseKeyMode m.key = .raw) := by
  obtain ⟨key, value, op⟩ := m
  unfold writePair at h
  split at h
  · cases h
  rename_i _ hcheck
  constructor
  · cases op with
    | put => exact (Except.ok.inj h).symm.trans (by
        simp [add, put, entry, RawPair.encoded, isPut, rawValue])
    | delete => exact (Except.ok.inj h).symm.trans (by
        simp [add, put, entry, RawPair.encoded, isPut])
  · intro hv2
    unfold checkApiVersion at hcheck
    by_contra hmode
    rw [if_pos ⟨hv2, hmode⟩] at hcheck
    cases hcheck

structure Took (w : RawSstWriter) (ps : List RawPair) (w' : RawSstWriter) : Prop where
  eq_add : w' = w.add ps
  accepted : ∀ p ∈ ps, p.Accepted w.apiVersion

theorem took_nil (w : RawSstWriter) : w.Took [] w := ⟨by simp [add], nofun⟩

theorem Took.apiVersion {ps : List RawPair} (h : w.Took ps w') : w'.apiVersion = w.apiVersion := by
  rw [h.eq_add, add]

theorem Took.append {w₁ w₂ w₃ : RawSstWriter} {ps qs : List RawPair} (h₁ : w₁.Took ps w₂) (h₂ : w₂.Took qs w₃) :
    w₁.Took (ps ++ qs) w₃ := by
  refine ⟨?_, fun p hp => ?_⟩
  · rw [h₂.eq_add, h₁.eq_add, add_append]
  · rcases List.mem_append.1 hp with hp | hp
    · exact h₁.accepted p hp
    · exact h₁.apiVersion ▸ h₂.accepted p hp

theorem took_pairs (hne : expireTs ≠ some 0) {pairs : List Pair} (hv1 : w.apiVersion = .v1 → expireTs = none)
    (h : pairs.foldlM (writePair ts expireTs) w = .ok w') : w.Took (pairs.map (RawPair.mk ts expireTs)) w' := by
  have hrun := foldlM_relates (g := fun m => [RawPair.mk ts expireTs m])
    (fun w _ => took_nil w)
    (fun w₁ w₂ w₃ ps qs (h₁ : _ → Took w₁ ps w₂) (h₂ : _ → Took w₂ qs w₃) (hv1 : w₁.apiVersion = .v1 → _) =>
      (h₁ hv1).append (h₂ fun h => hv1 ((h₁ hv1).apiVersion ▸ h)))
    (fun w m w' hpair hv1 => by
      obtain ⟨heq, hmode⟩ := writePair_spec hpair
      refine ⟨heq, fun p hp => ?_⟩
      cases List.mem_singleton.1 hp
      refine ⟨hmode, ?_⟩
      cases hapi : w.apiVersion with
      | v1 => exact ⟨hv1 hapi, rfl⟩
      | v1ttl => exact ⟨hne, rfl⟩
      | v2 => trivial) h hv1
  rwa [List.map_eq_flatMap]

theorem write_spec {batch : RawWriteBatch} (h : w.write batch = .ok w') : w.Took batch.rawPairs w' := by
  unfold write at h
  unfold RawWriteBatch.rawPairs
  split at h
  · rename_i httl
    have hexpire : ttlToExpireTs batch.ttl batch.now = none := if_pos httl
    rw [hexpire]
    exact took_pairs (Option.some_ne_none _).symm (fun _ => rfl) h
  · split at h
    · rename_i henabled
      refine took_pairs (ttlToExpireTs_ne_zero _ _) (fun hv1 => ?_) h
      rw [hv1] at henabled
      cases henabled
    · cases h

theorem writeAll_spec {batches : List RawWriteBatch} (h : w.writeAll batches = .ok w') :
    w.Took (rawPairs batches) w' :=
  foldlM_relates (f := write) (g := RawWriteBatch.rawPairs) took_nil (fun _ _ _ _ _ => Took.append)
    (fun _ _ _ => write_spec) h

end RawSstWriter

end Import
end Tikv
