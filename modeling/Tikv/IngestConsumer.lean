import Tikv.IngestWorker
import Tikv.IngestCheckpoint
/-!
# IngestConsumer — the consumer of a replication stream (`task.rs`)

The event loop takes the events of its subscription one by one.  Checkpoints and splits it handles itself; everything
else goes to the channel of one of four ingest workers, which run on their own.  A stop closes the channels, and the
workers drain them while the next session may already run; a crash loses what was not ingested.  The next session starts
from the checkpoint file and with a stream of its own.

The loop is always in span mode, so a split or a topology change subscribes to nothing.  Its exits, a cancel, a reached
cutover or a closed subscription, are one action, `stop`, which may be taken at any time.
-/
namespace Tikv
namespace Ingest

open Lib (Bytes)

abbrev ingestWorkers : Nat := 4

instance instNeZeroIngestWorkers : NeZero ingestWorkers := ⟨by decide⟩

structure Worker where
  rx : List PcrEventWithMeta
  batcher : SstBatcher

structure Config where
  maxKvBufferSize : Nat
  maxRangeBufferSize : Nat
  flushIntervalMs : Nat

def Worker.new (cfg : Config) (now : Nat) : Worker :=
  ⟨[], SstBatcher.new cfg.maxKvBufferSize cfg.maxRangeBufferSize now⟩

/-- The state of the consumer.  `received` and `past` are for the record: what this session and each earlier one
received. -/
structure Consumer where
  running : Bool
  stream : List PcrEventWithMeta
  received : List PcrEventWithMeta
  past : List (List PcrEventWithMeta)
  next : UInt64
  workers : Fin ingestWorkers → Worker
  /-- workers of stopped sessions whose closed channels are not drained yet -/
  draining : List Worker
  engine : Engine
  frontier : Frontier
  checkpointMgr : CheckpointManager
  resumeTs : Nat
  file : Option Frontier

def Consumer.init (cfg : Config) (e : Engine) : Consumer where
  running := false
  stream := []
  received := []
  past := []
  next := 0
  workers _ := .new cfg 0
  draining := []
  engine := e
  frontier := ∅
  checkpointMgr := .new
  resumeTs := 0
  file := none

inductive Action
  | start (forceFullScan : Bool) (stream : List PcrEventWithMeta) (now : Nat)
  | receive (env : RecordEnv)
  | work (i : Fin ingestWorkers) (t : LoopEnv)
  | idle (i : Fin ingestWorkers) (env : FlushEnv)
  | rediscover (pdRegions : List Nat)
  | stop (env : RecordEnv)
  | drain (j : Nat) (t : LoopEnv)
  | crash

/-! ## The event loop -/

def Consumer.idx (c : Consumer) (ev : PcrEventWithMeta) : Fin ingestWorkers :=
  if ev.regionId ≠ 0 then Fin.ofNat 4 ev.regionId else Fin.ofNat 4 c.next.toNat

def handleDataEvent (ev : PcrEventWithMeta) (c : Consumer) : Consumer :=
  let idx := c.idx ev
  let next := if ev.regionId ≠ 0 then c.next else c.next + 1
  { c with
    next := next
    workers := Function.update c.workers idx { c.workers idx with rx := (c.workers idx).rx ++ [ev] } }

def recordFrontier (env : RecordEnv) (c : Consumer) : Consumer :=
  let r := c.checkpointMgr.recordCheckpoint env c.frontier c.file
  { c with checkpointMgr := r.1, file := r.2.1 }

/-- `handle_control_event`'s arm for a checkpoint: the workers flush on their own. -/
def onCheckpoint (env : RecordEnv) (resolvedTs : Nat) (regionIds : List Nat) (c : Consumer) : Consumer :=
  recordFrontier env { c with frontier := regionIds.foldl (fun f rid => f.insert rid resolvedTs) c.frontier }

/-- Its arm for a split: the frontier forgets the parent and the children. -/
def onSplit (parent : Nat) (newRegionIds : List Nat) (c : Consumer) : Consumer :=
  { c with frontier := newRegionIds.foldl (fun f rid => f.erase rid) (c.frontier.erase parent) }

def handleEvent (env : RecordEnv) (ev : PcrEventWithMeta) (c : Consumer) : Consumer :=
  match ev.event.event with
  | .checkpoint resolvedTs regionIds => onCheckpoint env resolvedTs regionIds c
  | .split _ newRegionIds => onSplit ev.regionId newRegionIds c
  | _ => handleDataEvent ev c

def receiveEvent (env : RecordEnv) (c : Consumer) : Option Consumer :=
  match c.running, c.stream with
  | true, ev :: rest => some (handleEvent env ev { c with stream := rest, received := c.received ++ [ev] })
  | _, _ => none

def rediscover (pdRegions : List Nat) (c : Consumer) : Option Consumer :=
  if c.running then
    if pdRegions.isEmpty then some c
    else
      let removed := c.frontier.keys.filter (fun rid => !pdRegions.contains rid)
      some { c with frontier := removed.foldl (fun f rid => f.erase rid) c.frontier }
  else none

/-! ## The workers -/

def workerTurn (cfg : Config) (i : Fin ingestWorkers) (t : LoopEnv) (c : Consumer) : Option Consumer :=
  match c.running, (c.workers i).rx with
  | true, ev :: rest =>
    let r := workerRecv cfg.flushIntervalMs t ev (c.workers i).batcher c.engine
    some { c with workers := Function.update c.workers i ⟨rest, r.1⟩, engine := r.2 }
  | _, _ => none

def workerTimeout (i : Fin ingestWorkers) (env : FlushEnv) (c : Consumer) : Option Consumer :=
  if c.running then
    let r := workerIdle env (c.workers i).batcher c.engine
    some { c with workers := Function.update c.workers i ⟨(c.workers i).rx, r.1⟩, engine := r.2 }
  else none

/-- A worker whose channel is closed takes what is left in it, then flushes and returns. -/
def drainTurn (cfg : Config) (j : Nat) (t : LoopEnv) (c : Consumer) : Option Consumer :=
  match c.draining[j]? with
  | none => none
  | some ⟨ev :: rest, b⟩ =>
    let r := workerRecv cfg.flushIntervalMs t ev b c.engine
    some { c with draining := c.draining.set j ⟨rest, r.1⟩, engine := r.2 }
  | some ⟨[], b⟩ =>
    let r := workerIdle t.after b c.engine
    some { c with draining := c.draining.eraseIdx j, engine := r.2 }

/-! ## Sessions -/

def spawnEventLoop (cfg : Config) (forceFullScan : Bool) (stream : List PcrEventWithMeta) (now : Nat) (c : Consumer) :
    Option Consumer :=
  if c.running then none
  else
    let frontier := if forceFullScan then ∅ else loadCheckpoint c.file
    some { c with
      running := true
      stream := stream
      workers := fun _ => .new cfg now
      frontier := frontier
      resumeTs := (globalMinTs frontier).getD 0 }

/-- `components` as `create_components` makes them: of a session only the engine, the file and the workers that drain
stay. -/
def createComponents (cfg : Config) (draining : List Worker) (c : Consumer) : Consumer :=
  { c with
    running := false
    stream := []
    received := []
    past := c.past ++ [c.received]
    workers := fun _ => .new cfg 0
    draining := draining
    frontier := ∅
    checkpointMgr := .new }

/-- The end of `run_event_loop`: the frontier is recorded and the channels are closed. -/
def stopEventLoop (cfg : Config) (env : RecordEnv) (c : Consumer) : Option Consumer :=
  if c.running then some (createComponents cfg (c.draining ++ List.ofFn c.workers) (recordFrontier env c)) else none

def crash (cfg : Config) (c : Consumer) : Consumer := createComponents cfg [] { c with next := 0 }

def step (cfg : Config) (c : Consumer) : Action → Option Consumer
  | .start forceFullScan stream now => spawnEventLoop cfg forceFullScan stream now c
  | .receive env => receiveEvent env c
  | .work i t => workerTurn cfg i t c
  | .idle i env => workerTimeout i env c
  | .rediscover pdRegions => rediscover pdRegions c
  | .stop env => stopEventLoop cfg env c
  | .drain j t => drainTurn cfg j t c
  | .crash => some (crash cfg c)

def Steps (cfg : Config) (c : Consumer) (a : Action) (c' : Consumer) : Prop := step cfg c a = some c'

end Ingest
end Tikv
