import Tikv.PcrEvents
import Mathlib.Data.List.Sort
/-!
# IngestSstBatcher — buffering, SST files and direct ingest (`sst_batcher.rs`, `direct_ingest.rs`)

`flush` empties the batcher in two phases.  The pairs are grouped by column family, each group is sorted, written to an
SST file and ingested; then the range deletes are applied.  RocksDB, the file system and PD are outside: one flush meets
one `FlushEnv`, which holds their answers and what is assumed of them.
-/
namespace Tikv
namespace Ingest

open Lib (Bytes Patch)

inductive Error
  | ingestError (msg : String)
  | sstWriterError (msg : String)
  | checkpointError (msg : String)
  | ioError (msg : String)
  | other (msg : String)
  deriving DecidableEq, Repr

structure MvccKeyValue where
  key : Bytes
  value : Bytes
  cf : Cf
  deriving DecidableEq, Repr

inductive FlushReason
  | bufferFull
  | checkpoint
  | rangeBoundary
  | manual
  deriving DecidableEq, Repr

structure FlushResult where
  regionId : Nat
  ingestedBytes : Nat
  ingestedKvs : Nat
  deriving DecidableEq, Repr

structure RangeDelete where
  startKey : Bytes
  endKey : Bytes
  ts : Nat
  deriving DecidableEq, Repr

/-- `SstBatcher`; times are milliseconds. -/
structure SstBatcher where
  kvBuffer : List MvccKeyValue
  kvBufferSize : Nat
  maxKvBufferSize : Nat
  rangeBuffer : List RangeDelete
  rangeBufferSize : Nat
  maxRangeBufferSize : Nat
  currentStartKey : Bytes
  currentEndKey : Bytes
  currentRegionId : Nat
  totalFlushes : Nat
  totalKvsWritten : Nat
  totalBytesWritten : Nat
  lastFlushTime : Nat
  deriving DecidableEq, Repr

abbrev CfGroup := Cf × List MvccKeyValue

/-- **What one flush meets outside the batcher**: the order the hash map of groups is walked in, the clock, and the
answer of each fallible call.  The size of a finished file is positive, as RocksDB writes its footer into every file. -/
structure FlushEnv where
  order : List CfGroup → List CfGroup
  order_perm : ∀ gs, (order gs).Perm gs
  now : Nat
  build : Cf → Except String Unit
  put : Cf → Except String Unit
  outOfOrder : String
  finishRead : Cf → Except String Unit
  readToEnd : Cf → Except String Unit
  fileSize : Cf → Nat
  fileSize_pos : ∀ cf, 0 < fileSize cf
  getRegionInfo : Bytes → Except String Nat
  fsWrite : Cf → Except String Unit
  ingestExternalFileCf : Cf → Except String Unit
  deleteRangesCf : Cf → Except String Unit

structure SstFile where
  entries : List (Bytes × Bytes)
  size : Nat

namespace SstBatcher

def new (maxKvBufferSize maxRangeBufferSize now : Nat) : SstBatcher where
  kvBuffer := []
  kvBufferSize := 0
  maxKvBufferSize := maxKvBufferSize
  rangeBuffer := []
  rangeBufferSize := 0
  maxRangeBufferSize := maxRangeBufferSize
  currentStartKey := []
  currentEndKey := []
  currentRegionId := 0
  totalFlushes := 0
  totalKvsWritten := 0
  totalBytesWritten := 0
  lastFlushTime := now

def elapsedSinceLastFlush (b : SstBatcher) (now : Nat) : Nat := now - b.lastFlushTime

def pendingKvs (b : SstBatcher) : Nat := b.kvBuffer.length

def updateCurrentRange (b : SstBatcher) (key : Bytes) : SstBatcher :=
  { b with
    currentStartKey := if b.currentStartKey.isEmpty then key else b.currentStartKey
    currentEndKey := key }

/-- `add_kv`; the answer of the source, whether the buffer is full, is `shouldFlush .bufferFull` of the result. -/
def addKv (b : SstBatcher) (kv : MvccKeyValue) : SstBatcher :=
  let b := { b with kvBufferSize := b.kvBufferSize + (kv.key.length + kv.value.length) }
  let b := b.updateCurrentRange kv.key
  { b with kvBuffer := b.kvBuffer ++ [kv] }

def addDeleteRange (b : SstBatcher) (startKey endKey : Bytes) (ts : Nat) : SstBatcher :=
  { b with
    rangeBufferSize := b.rangeBufferSize + (startKey.length + endKey.length)
    rangeBuffer := b.rangeBuffer ++ [⟨startKey, endKey, ts⟩] }

def shouldFlush (b : SstBatcher) : FlushReason → Bool
  | .bufferFull => decide (b.maxKvBufferSize ≤ b.kvBufferSize)
  | .checkpoint => !b.kvBuffer.isEmpty
  | .rangeBoundary => b.currentRegionId != 0 && !b.kvBuffer.isEmpty
  | .manual => !b.kvBuffer.isEmpty

end SstBatcher

/-! ## One column family -/

def pushGroup (kv : MvccKeyValue) : List CfGroup → List CfGroup
  | [] => [(kv.cf, [kv])]
  | (cf, kvs) :: gs => if cf = kv.cf then (cf, kvs ++ [kv]) :: gs else (cf, kvs) :: pushGroup kv gs

def groupByCf (kvs : List MvccKeyValue) : List CfGroup := kvs.foldl (fun gs kv => pushGroup kv gs) []

def sortByKey (kvs : List MvccKeyValue) : List MvccKeyValue := kvs.insertionSort (fun a b => a.key ≤ b.key)

/-- The `put` calls of one SST writer, `last` the key of the call before.  RocksDB's `SstFileWriter` refuses a key that
is not after the last one. -/
def putAll (env : FlushEnv) (cf : Cf) : Option Bytes → List MvccKeyValue → Except Error Unit
  | _, [] => .ok ()
  | last, kv :: kvs =>
    if last.all (fun k => decide (k < kv.key)) then
      match env.put cf with
      | .error e => .error (.sstWriterError s!"SST put failed: {e}")
      | .ok () => putAll env cf (some kv.key) kvs
    else .error (.sstWriterError s!"SST put failed: {env.outOfOrder}")

def buildSst (env : FlushEnv) (cf : Cf) (kvs : List MvccKeyValue) : Except Error SstFile :=
  match env.build cf with
  | .error e => .error (.sstWriterError s!"failed to create SST writer for CF {cf.name}: {e}")
  | .ok () =>
    match putAll env cf none kvs with
    | .error e => .error e
    | .ok () =>
      match env.finishRead cf with
      | .error e => .error (.sstWriterError s!"SST finish_read failed: {e}")
      | .ok () =>
        match env.readToEnd cf with
        | .error e => .error (.ioError e)
        | .ok () => .ok ⟨kvs.map (fun kv => (kv.key, kv.value)), env.fileSize cf⟩

def SstFile.patch (sst : SstFile) (cf : Cf) : EnginePatch :=
  Patch.seqAll (sst.entries.map (fun p => Patch.put (cf, p.1) p.2))

/-- `DirectIngestContext::ingest_sst`; its region id and last key arguments are not read. -/
def ingestSst (env : FlushEnv) (sst : SstFile) (firstKey : Bytes) (cf : Cf) (e : Engine) : Engine × Except Error Nat :=
  if sst.size = 0 then (e, .ok 0)
  else
    match env.getRegionInfo firstKey with
    | .error m => (e, .error (.ingestError s!"PD lookup failed: {m}"))
    | .ok regionId =>
      match env.fsWrite cf with
      | .error m => (e, .error (.ioError m))
      | .ok () =>
        match env.ingestExternalFileCf cf with
        | .error m => (e, .error (.ingestError s!"ingest_external_file_cf failed for region {regionId}: {m}"))
        | .ok () => ((sst.patch cf).apply e, .ok regionId)

def ingestGroup (env : FlushEnv) (g : CfGroup) (e : Engine) : Engine × Except Error (Nat × Nat) :=
  match buildSst env g.1 (sortByKey g.2) with
  | .error err => (e, .error err)
  | .ok sst =>
    -- `kvs[0]`: no group is empty
    match ingestSst env sst ((sortByKey g.2).head?.elim [] (fun kv => kv.key)) g.1 e with
    | (e', .error err) => (e', .error err)
    | (e', .ok regionId) => (e', .ok (regionId, sst.size))

def ingestGroups (env : FlushEnv) : List CfGroup → Engine → Nat × Nat → Engine × Except Error (Nat × Nat)
  | [], e, acc => (e, .ok acc)
  | g :: gs, e, acc =>
    match ingestGroup env g e with
    | (e', .error err) => (e', .error err)
    | (e', .ok (regionId, size)) => ingestGroups env gs e' (regionId, acc.2 + size)

/-! ## Range deletes -/

def eraseRange (cf : Cf) (startKey endKey : Bytes) : EnginePatch :=
  Patch.erase (fun s => s.1 == cf && decide (startKey ≤ s.2) && decide (s.2 < endKey))

/-- `DirectIngestContext::apply_delete_range`: the answers are dropped. -/
def applyDeleteRange (env : FlushEnv) (startKey endKey : Bytes) (e : Engine) : Engine :=
  [Cf.default, Cf.write, Cf.lock].foldl (fun e cf =>
    match env.deleteRangesCf cf with
    | .error _ => e
    | .ok () => (eraseRange cf startKey endKey).apply e) e

/-! ## Flush -/

/-- **`SstBatcher::flush`**: the batcher and the engine after it, and its answer.  The pairs have left the buffer before
anything can fail. -/
def SstBatcher.flush (env : FlushEnv) (b : SstBatcher) (e : Engine) : SstBatcher × Engine × Except Error FlushResult :=
  if b.kvBuffer.isEmpty && b.rangeBuffer.isEmpty then (b, e, .ok ⟨0, 0, 0⟩)
  else
    let drained := { b with kvBuffer := [] }
    match ingestGroups env (env.order (groupByCf b.kvBuffer)) e (0, 0) with
    | (e', .error err) => (drained, e', .error err)
    | (e', .ok (regionId, totalBytes)) =>
      ({ drained with
          rangeBuffer := []
          kvBufferSize := 0
          rangeBufferSize := 0
          totalFlushes := b.totalFlushes + 1
          totalKvsWritten := b.totalKvsWritten + b.kvBuffer.length
          totalBytesWritten := b.totalBytesWritten + totalBytes
          lastFlushTime := env.now },
        b.rangeBuffer.foldl (fun e r => applyDeleteRange env r.startKey r.endKey e) e',
        .ok ⟨regionId, totalBytes, b.kvBuffer.length⟩)

end Ingest
end Tikv
