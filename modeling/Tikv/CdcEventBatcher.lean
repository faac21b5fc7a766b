import Tikv.PcrEvents
/-!
# CdcEventBatcher — the producer's batch of pairs (`pcr_event_batcher.rs`)

A flush hands out the event itself; its protobuf bytes are parsed back by the receiver.
-/
namespace Tikv
namespace Cdc

open Lib (Bytes)

structure PcrEventBatcher where
  batch : List PcrKv
  size : Nat
  batchByteSize : Nat
  seqNum : Nat
  /-- milliseconds -/
  lastFlush : Nat
  flushIntervalMs : Nat
  deriving DecidableEq, Repr

namespace PcrEventBatcher

def new (batchByteSize flushIntervalMs now : Nat) : PcrEventBatcher := ⟨[], 0, batchByteSize, 0, now, flushIntervalMs⟩

def addKv (b : PcrEventBatcher) (key value : Bytes) (op : OpType) (cf : Cf) : PcrEventBatcher :=
  { b with
    size := b.size + (key.length + value.length)
    batch := b.batch ++ [⟨key, value, op, cf⟩] }

def shouldFlush (b : PcrEventBatcher) (now : Nat) : Bool :=
  decide (b.batchByteSize ≤ b.size) ||
    (decide (0 < b.flushIntervalMs) && decide (0 < b.size) && decide (b.flushIntervalMs ≤ now - b.lastFlush))

def flush (b : PcrEventBatcher) (now : Nat) : PcrEventBatcher × Option PcrEvent :=
  if b.batch.isEmpty then (b, none)
  else
    ({ b with batch := [], size := 0, seqNum := b.seqNum + 1, lastFlush := now },
      some ⟨b.seqNum + 1, .kvBatch b.batch, false⟩)

end PcrEventBatcher
end Cdc
end Tikv
