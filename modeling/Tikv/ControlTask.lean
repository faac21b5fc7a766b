import Tikv.IngestCheckpoint
/-!
# ControlTask — the task that controls replication (`stream-ingest/src/task.rs`)

`StreamIngestTask::run` takes one control task at a time.  Each is a list of effects, in the source's order, on the
task, the storage guard and the files; the process may end between any two of them and come up again from the files with
a guard that is down.  The event loops it spawned run beside it.  A loop says only that it is done, not why, and it reads
the cutover timestamp from a cell that outlives it.
-/
namespace Tikv
namespace Control

open Ingest (Frontier CheckpointManager RecordEnv globalMinTs loadCheckpoint)

inductive TaskState
  | idle | subscribing | paused | cuttingOver | completed | activated | failed
deriving DecidableEq, Repr

def TaskState.debug : TaskState → String
  | idle => "Idle"
  | subscribing => "Subscribing"
  | paused => "Paused"
  | cuttingOver => "CuttingOver"
  | completed => "Completed"
  | activated => "Activated"
  | failed => "Failed"

def loadPersistedState (stateFile : Option String) (streamIngestEnabled : Bool) : TaskState :=
  match stateFile with
  | some "Subscribing" => .paused
  | some "Paused" => .paused
  | some "Completed" => .idle
  | some "Failed" => .idle
  | some "Activated" => .idle
  | _ => if streamIngestEnabled then .paused else .idle

/-- Why an event loop ended.  A loop that panicked drops its sender without saying that it is done. -/
inductive ExitCause
  | subscriptionFailed | channelClosed | cancelled | cutover | panicked
deriving DecidableEq, Repr

/-- A spawned event loop, of its components what decides when it ends.  `cutoverSince` is for the record: a cutover was
accepted after the loop started. -/
structure EventLoop where
  frontier : Frontier
  checkpointMgr : CheckpointManager
  resumeTs : Nat
  spanMode : Bool
  cancel : Bool
  exited : Option ExitCause
  cutoverSince : Bool

abbrev toLatest : Nat := 2 ^ 64 - 1

def isCutoverReady (cutoverTs : Nat) (frontier : Frontier) : Bool :=
  if cutoverTs = 0 then false
  else
    let globalMin := (globalMinTs frontier).getD 0
    if globalMin = 0 then false
    else if cutoverTs = toLatest then true
    else decide (cutoverTs ≤ globalMin)

inductive LoopEvent
  | subscribed (ok : Bool)
  | cancelChanged
  | cutoverCheck
  | rediscover (pdRegions : List Nat)
  | checkpoint (resolvedTs : Nat) (regionIds : List Nat)
  | split (parent : Nat) (newRegionIds : List Nat)
  | channelClosed
  | panic

namespace EventLoop

def leave (l : EventLoop) (cause : ExitCause) (env : RecordEnv) (file : Option Frontier) : EventLoop × Option Frontier :=
  let r := l.checkpointMgr.recordCheckpoint env l.frontier file
  ({ l with checkpointMgr := r.1, exited := some cause }, r.2.1)

/-- One turn of `run_event_loop`, with the checkpoint file.  An ended loop does nothing any more. -/
def turn (l : EventLoop) (cutoverTs : Nat) (env : RecordEnv) (file : Option Frontier) :
    LoopEvent → EventLoop × Option Frontier
  | .panic => if l.exited.isSome then (l, file) else ({ l with exited := some .panicked }, file)
  | .subscribed ok =>
    if l.exited.isSome || l.spanMode then (l, file)
    else if ok then ({ l with spanMode := true }, file)
    else ({ l with exited := some .subscriptionFailed }, file)
  | event =>
    if l.exited.isSome || !l.spanMode then (l, file)
    else
      match event with
      | .cancelChanged => if l.cancel then l.leave .cancelled env file else (l, file)
      | .cutoverCheck => if isCutoverReady cutoverTs l.frontier then l.leave .cutover env file else (l, file)
      | .rediscover pdRegions =>
        if pdRegions.isEmpty then (l, file)
        else
          let removed := l.frontier.keys.filter (fun rid => !pdRegions.contains rid)
          ({ l with frontier := removed.foldl (fun f rid => f.erase rid) l.frontier }, file)
      | .checkpoint resolvedTs regionIds =>
        let l := { l with frontier := regionIds.foldl (fun f rid => f.insert rid resolvedTs) l.frontier }
        let r := l.checkpointMgr.recordCheckpoint env l.frontier file
        let l := { l with checkpointMgr := r.1 }
        match r.2.2 with
        -- the loop goes on after an error that is not the cutover's own
        | .error _ => (l, r.2.1)
        | .ok () => if isCutoverReady cutoverTs l.frontier then l.leave .cutover env r.2.1 else (l, r.2.1)
      | .split parent newRegionIds =>
        ({ l with frontier := newRegionIds.foldl (fun f rid => f.erase rid) (l.frontier.erase parent) }, file)
      | _ => l.leave .channelClosed env file

end EventLoop

/-! ## The control tasks -/

inductive Task
  | configChange
  | startReplication (sourcePd taskName : String)
  | createReplication (sourcePd taskName : String)
  | pauseReplication
  | resumeReplication
  | startSubscription (regionId startTs : Nat) (sourceAddr : String)
  | cutover (cutoverTs : Nat)
  | activate
  | shutdown
deriving DecidableEq, Repr

inductive Effect
  | setState (state : TaskState)
  | setSourcePd (sourcePd : String)
  | writeSourcePd
  | storeWriteGuard (value : Bool)
  | spawnEventLoop (forceFullScan : Bool)
  | persistState
  | sendCancel
  /-- the wait of `stop_event_loop`, 5 s -/
  | awaitStopped
  | storeCutoverTs (cutoverTs : Nat)
  /-- the wait of a cutover, 300 s -/
  | awaitCutover (cutoverTs : Nat)
  | clearCheckpoint
  | removeStateFile
deriving DecidableEq, Repr

def stopEventLoop : List Effect := [.sendCancel, .awaitStopped]

def replicate (state : TaskState) (sourcePd : String) (forceFullScan : Bool) : List Effect :=
  let go :=
    [.setState .subscribing, .setSourcePd sourcePd, .writeSourcePd, .storeWriteGuard true,
      .spawnEventLoop forceFullScan, .persistState]
  if state = .subscribing then stopEventLoop ++ go
  else if state ≠ .paused ∧ state ≠ .idle ∧ state ≠ .activated ∧ state ≠ .completed then []
  else go

/-- **`StreamIngestTask::run`**: the effects of a task in a state; none when it is ignored. -/
def Task.effects (state : TaskState) : Task → List Effect
  | .configChange => []
  | .startReplication sourcePd _ => replicate state sourcePd false
  | .createReplication sourcePd _ => replicate state sourcePd true
  | .pauseReplication => if state ≠ .subscribing then [] else stopEventLoop ++ [.setState .paused, .persistState]
  | .resumeReplication =>
    -- the guard is not stored here
    if state ≠ .paused then [] else [.setState .subscribing, .spawnEventLoop false, .persistState]
  | .startSubscription _ _ _ => []
  | .cutover cutoverTs =>
    if state ≠ .subscribing then []
    else [.storeCutoverTs cutoverTs, .setState .cuttingOver, .persistState, .awaitCutover cutoverTs]
  | .shutdown => (if state = .subscribing then stopEventLoop else []) ++ [.setState .completed, .persistState]
  | .activate =>
    if state ≠ .completed ∧ state ≠ .subscribing then []
    else
      (if state = .subscribing then stopEventLoop ++ [.setState .completed] else []) ++
        [.clearCheckpoint, .removeStateFile, .setState .activated, .storeWriteGuard false]

/-! ## The process -/

/-- The process: the task, the storage guard, the spawned loops, what is left to do of the task taken, and the files.
`created` and `completions` are for the record: a replication was created and no activation has completed since; the
cutovers that completed, with the loop as it ended. -/
structure Process where
  enable : Bool
  state : TaskState
  sourcePd : Option String
  /-- the loops these channels belong to -/
  cancelTx : Option Nat
  doneRx : Option Nat
  cutoverTs : Nat
  writeGuard : Bool
  loops : List EventLoop
  running : Option (Task × List Effect)
  stateFile : Option String
  sourcePdFile : Option String
  checkpointFile : Option Frontier
  created : Bool
  completions : List (Nat × EventLoop)

structure EffectEnv where
  ok : Bool
  timedOut : Bool

namespace Process

/-- `StreamIngestTask::new` with a fresh storage guard, on the files an earlier process left. -/
def start (enable : Bool) (stateFile sourcePdFile : Option String) (checkpointFile : Option Frontier) (created : Bool)
    (completions : List (Nat × EventLoop)) : Process where
  enable
  state := loadPersistedState stateFile enable
  sourcePd := sourcePdFile
  cancelTx := none
  doneRx := none
  cutoverTs := 0
  writeGuard := false
  loops := []
  running := none
  stateFile
  sourcePdFile
  checkpointFile
  created
  completions

def restart (p : Process) : Process :=
  start p.enable p.stateFile p.sourcePdFile p.checkpointFile p.created p.completions

/-- `spawn_event_loop`: components are always fresh, so their frontier is empty unless a checkpoint is loaded. -/
def spawnEventLoop (p : Process) (forceFullScan : Bool) (env : EffectEnv) : Process :=
  let frontier := if forceFullScan || !env.ok then ∅ else loadCheckpoint p.checkpointFile
  let l := ⟨frontier, .new, (globalMinTs frontier).getD 0, false, false, none, false⟩
  { p with loops := p.loops ++ [l], cancelTx := some p.loops.length, doneRx := some p.loops.length }

def awaited (p : Process) : Option EventLoop := p.doneRx.bind fun i => p.loops[i]?

/-- One effect: the process after it and what it adds to do; `none` while it waits. -/
def perform (p : Process) (env : EffectEnv) : Effect → Option (Process × List Effect)
  | .setState state => some ({ p with state }, [])
  | .setSourcePd sourcePd => some ({ p with sourcePd := some sourcePd }, [])
  | .writeSourcePd => some (if env.ok then { p with sourcePdFile := p.sourcePd } else p, [])
  | .storeWriteGuard value => some ({ p with writeGuard := value }, [])
  | .spawnEventLoop forceFullScan => some (p.spawnEventLoop forceFullScan env, [])
  | .persistState => some (if env.ok then { p with stateFile := some p.state.debug } else p, [])
  | .sendCancel =>
    match p.cancelTx with
    | none => some (p, [])
    | some i => some ({ p with loops := p.loops.modify i fun l => { l with cancel := true }, cancelTx := none }, [])
  | .awaitStopped =>
    match p.awaited with
    | none => some ({ p with doneRx := none }, [])
    | some l => if l.exited.isSome || env.timedOut then some ({ p with doneRx := none }, []) else none
  | .storeCutoverTs cutoverTs => some ({ p with cutoverTs }, [])
  | .awaitCutover cutoverTs =>
    match p.awaited with
    | none => some ({ p with doneRx := none }, [])
    | some l =>
      match l.exited with
      | some .panicked => some ({ p with doneRx := none }, [])
      | some _ =>
        some ({ p with doneRx := none, completions := p.completions ++ [(cutoverTs, l)] },
          [.setState .completed, .persistState])
      | none => if env.timedOut then some ({ p with doneRx := none }, [.setState .failed, .persistState]) else none
  | .clearCheckpoint => some (if env.ok then { p with checkpointFile := none } else p, [])
  | .removeStateFile => some (if env.ok then { p with stateFile := none } else p, [])

def complete (p : Process) (t : Task) : Process :=
  { p with
    running := none
    created := match t with
      | .startReplication _ _ => true
      | .createReplication _ _ => true
      | .activate => false
      | _ => p.created }

def marked (p : Process) : Task → List EventLoop
  | .cutover _ => p.loops.map fun l => { l with cutoverSince := true }
  | _ => p.loops

def take (p : Process) (t : Task) : Process :=
  match p.running, t.effects p.state with
  | none, e :: r => { p with running := some (t, e :: r), loops := p.marked t }
  | _, _ => p

def exec (p : Process) (env : EffectEnv) : Process :=
  match p.running with
  | some (t, e :: rest) =>
    match p.perform env e with
    | none => p
    | some (p', more) =>
      match more ++ rest with
      | [] => p'.complete t
      | r => { p' with running := some (t, r) }
  | _ => p

/-- **What a turn of the control thread does**: nothing, or the next effect with what follows from it. -/
theorem exec_cases (p : Process) (env : EffectEnv) :
    p.exec env = p ∨ ∃ t e rest p' more, p.running = some (t, e :: rest) ∧ p.perform env e = some (p', more) ∧
      (more ++ rest = [] ∧ p.exec env = p'.complete t ∨
        more ++ rest ≠ [] ∧ p.exec env = { p' with running := some (t, more ++ rest) }) := by
  unfold exec
  split
  · rename_i t e rest hrun
    split
    · exact .inl rfl
    rename_i p' more hperf
    refine .inr ⟨t, e, rest, p', more, hrun, hperf, ?_⟩
    split
    · rename_i hnil
      exact .inl ⟨hnil, rfl⟩
    rename_i hne
    exact .inr ⟨hne, rfl⟩
  · exact .inl rfl

theorem take_cases (p : Process) (t : Task) : p.take t = p ∨ p.running = none ∧ t.effects p.state ≠ [] ∧
      p.take t = { p with running := some (t, t.effects p.state), loops := p.marked t } := by
  unfold take
  split
  · rename_i e r hrun heff
    exact .inr ⟨hrun, heff ▸ List.cons_ne_nil e r, by rw [heff]⟩
  · exact .inl rfl

def loopTurn (p : Process) (i : Nat) (event : LoopEvent) (env : RecordEnv) : Process :=
  match p.loops[i]? with
  | none => p
  | some l =>
    let r := l.turn p.cutoverTs env p.checkpointFile event
    { p with loops := p.loops.set i r.1, checkpointFile := r.2 }

theorem loopTurn_frame (p : Process) (i : Nat) (event : LoopEvent) (env : RecordEnv) :
    ∃ loops checkpointFile, p.loopTurn i event env = { p with loops, checkpointFile } := by
  unfold loopTurn
  split
  · exact ⟨p.loops, p.checkpointFile, rfl⟩
  · exact ⟨_, _, rfl⟩

end Process

inductive Event
  | take (t : Task)
  | exec (env : EffectEnv)
  | loopTurn (i : Nat) (event : LoopEvent) (env : RecordEnv)
  | restart

def Process.step (p : Process) : Event → Process
  | .take t => p.take t
  | .exec env => p.exec env
  | .loopTurn i event env => p.loopTurn i event env
  | .restart => p.restart

def Process.init (enable : Bool) (stateFile sourcePdFile : Option String) (checkpointFile : Option Frontier) : Process :=
  .start enable stateFile sourcePdFile checkpointFile false []

end Control
end Tikv
