import Tikv.LibBytes
import Tikv.LibPatch
/-!
# PcrEvents — the messages of a replication stream

The events a source cluster emits and a target cluster ingests (`proto/pcrpb/pcrpb.proto`), the column families their
pairs name, and the target's key space: a slot is a key of a column family, an engine binds slots to values.
-/
namespace Tikv

open Lib (Bytes Store Patch)

/-- A column family by its name on the wire; `unset` is the empty string and `other` any name but the three. -/
inductive Cf
  | unset
  | default
  | write
  | lock
  | other (name : String)
  deriving DecidableEq, Repr

def Cf.name : Cf → String
  | unset => ""
  | default => "default"
  | write => "write"
  | lock => "lock"
  | other name => name

inductive OpType
  | put
  | delete
  deriving DecidableEq, Repr

structure PcrKv where
  key : Bytes
  value : Bytes
  op : OpType
  cf : Cf
  deriving DecidableEq, Repr

inductive PcrEventOneof
  | none
  | kvBatch (kvs : List PcrKv)
  | sstChunk (data startKey endKey : Bytes) (writeTs : Nat)
  | checkpoint (resolvedTs : Nat) (regionIds : List Nat)
  | deleteRange (startKey endKey : Bytes) (ts : Nat)
  | split (splitKey : Bytes) (newRegionIds : List Nat)
  deriving DecidableEq, Repr

structure PcrEvent where
  streamSeq : Nat
  event : PcrEventOneof
  isSnapshot : Bool
  deriving DecidableEq, Repr

/-- An event with the region id its subscription was made for; 0 on a span subscription. -/
structure PcrEventWithMeta where
  event : PcrEvent
  regionId : Nat
  deriving DecidableEq, Repr

abbrev Slot := Cf × Bytes

abbrev Engine := Store Slot Bytes

abbrev EnginePatch := Patch Slot Bytes

end Tikv
