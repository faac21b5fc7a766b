import Tikv.SpanOverlap
import Tikv.CdcLockTracker
import Tikv.CdcPcrSink
/-!
# CdcEndpoint — delegates and the span subscription (`endpoint.rs`, `delegate.rs`, `pcr_registry.rs`)

The endpoint keeps one delegate a region, the connections with their downstreams, the observed regions and the registry
of span subscriptions.  A delegate is attached to a subscription's sink in three places: when it is born or registered
again (`autoMatchPcr`), by a stream of its own (`onStartPcrStream`), and when a subscription comes in
(`registerSpanSubscription`).  The last reads the registry as it was before and not the region at all.  `Covered` says
that exactly the delegates of the regions that meet the span are attached; `KeepsCovered` is what a task has to meet for
it.

`none` is a failed assertion of the source; `run_spec` shows that there is none.
-/
namespace Tikv
namespace Cdc

open Lib Tikv.Span

/-! ## The delegate -/

structure Downstream where
  id : Nat
  reqId : Nat
  connId : Nat
  epochVersion : Nat
deriving DecidableEq, Repr

structure Delegate extends PcrFields where
  observeId : Nat
  lockTracker : Track.LockTracker
  downstreams : List Downstream

open Delegate

namespace Delegate

def new (observeId : Nat) : Delegate := ⟨⟨none, none⟩, observeId, .preparing [], []⟩

def enablePcr (d : Delegate) (eventSink bufferSize flushIntervalMs now : Nat) : Delegate :=
  { d with
    toPcrFields := d.toPcrFields.enablePcr eventSink bufferSize flushIntervalMs now
    lockTracker := .enablePcr }

def hasPcr (d : Delegate) : Bool := d.pcrBatcher.isSome && d.pcrEventSink.isSome

def subscribe (d : Delegate) (downstream : Downstream) : Option Delegate :=
  match d.lockTracker with
  | .prepared region _ =>
    if downstream.epochVersion = region.version then some { d with downstreams := d.downstreams ++ [downstream] } else none
  | _ => some { d with downstreams := d.downstreams ++ [downstream] }

def unsubscribe (d : Delegate) (id : Nat) : Delegate × Bool :=
  let downstreams := d.downstreams.eraseP (·.id = id)
  ({ d with downstreams }, downstreams.isEmpty)

def AttachedTo (d : Delegate) (sink : Nat) : Prop := d.hasPcr ∧ d.pcrEventSink = some sink

instance instDecidableAttachedTo (d : Delegate) (sink : Nat) : Decidable (d.AttachedTo sink) :=
  inferInstanceAs (Decidable (_ ∧ _))

def SamePcr (d d' : Delegate) : Prop := d'.pcrBatcher = d.pcrBatcher ∧ d'.pcrEventSink = d.pcrEventSink

variable {d d' : Delegate} {sink : Nat}

theorem SamePcr.attachedTo (h : SamePcr d d') : d'.AttachedTo sink ↔ d.AttachedTo sink := by
  unfold AttachedTo hasPcr
  rw [h.1, h.2]

theorem attachedTo_enablePcr {eventSink bufferSize flushIntervalMs now : Nat} :
    (d.enablePcr eventSink bufferSize flushIntervalMs now).AttachedTo sink ↔ eventSink = sink := by
  simp [AttachedTo, hasPcr, enablePcr, PcrFields.enablePcr]

theorem not_attachedTo_new (observeId : Nat) : ¬ (new observeId).AttachedTo sink := by
  rintro ⟨_, h⟩
  cases h

variable {downstream : Downstream}

theorem subscribe_same (h : d.subscribe downstream = some d') : SamePcr d d' ∧ d'.observeId = d.observeId := by
  unfold subscribe at h
  split at h
  · split at h
    · cases h; exact ⟨⟨rfl, rfl⟩, rfl⟩
    · cases h
  · cases h; exact ⟨⟨rfl, rfl⟩, rfl⟩

end Delegate

/-! ## The endpoint -/

structure Conn where
  validateClusterId : Bool
  downstreams : Map (Nat × Nat) Nat

namespace Conn

def subscribe (conn : Conn) (requestId regionId downstreamId : Nat) : Option Conn :=
  match conn.downstreams.lookup (requestId, regionId) with
  | some _ => none
  | none => some { conn with downstreams := conn.downstreams.insert (requestId, regionId) downstreamId }

def unsubscribe (conn : Conn) (requestId regionId : Nat) : Conn :=
  { conn with downstreams := conn.downstreams.erase (requestId, regionId) }

def requestDownstreams (conn : Conn) (requestId : Nat) : List (Nat × Nat) :=
  conn.downstreams.entries.filterMap fun e => if e.1.1 = requestId then some (e.1.2, e.2) else none

def allDownstreams (conn : Conn) : List (Nat × Nat) := conn.downstreams.entries.map fun e => (e.1.2, e.2)

end Conn

structure Endpoint where
  clusterId : Nat
  apiV2 : Bool
  incrementalScanConcurrencyLimit : Nat
  scanTaskCounter : Nat
  captureRegions : Map Nat Delegate
  connections : Map Nat Conn
  observeRegions : Map Nat Nat
  nextObserveId : Nat
  pcrRegistry : PcrRegistry

open Endpoint

inductive EventError
  | clusterIdMismatch (current request : Nat)
  | compatibility (requiredVersion : String)
  | serverIsBusy (reason : String)
  | regionNotFound (regionId : Nat)
  | duplicateRequest (regionId : Nat)
  | epochNotMatch
deriving DecidableEq, Repr

inductive KvApi
  | tiDb | rawKv | txnKv
deriving DecidableEq, Repr

structure ChangeDataRequest where
  regionId : Nat
  requestId : Nat
  clusterId : Nat
  kvApi : KvApi
deriving DecidableEq, Repr

inductive Deregister
  | conn (connId : Nat)
  | request (connId requestId : Nat)
  | region (connId requestId regionId : Nat)
  | downstream (connId requestId regionId downstreamId : Nat)
  | delegate (regionId observeId : Nat)
deriving DecidableEq, Repr

def validateKvApi (kvApi : KvApi) (apiV2 : Bool) : Bool :=
  decide (kvApi = .tiDb) || (decide (kvApi = .rawKv) && apiV2)

namespace Endpoint

def new (clusterId : Nat) (apiV2 : Bool) (incrementalScanConcurrencyLimit : Nat) : Endpoint :=
  ⟨clusterId, apiV2, incrementalScanConcurrencyLimit, 0, ∅, ∅, ∅, 0, ⟨[]⟩⟩

def autoMatchPcr (d : Delegate) (registry : PcrRegistry) (rStart rEnd : Bytes) (now : Nat) : Delegate :=
  match registry.matchRegion rStart rEnd with
  | some (sink, bufSize, flushMs) => d.enablePcr sink bufSize flushMs now
  | none => d

def deregisterObserve (ep : Endpoint) (regionId observeId : Nat) : Option Endpoint :=
  -- the observer answers the id it removed; the caller asserts that there was one
  if ep.observeRegions.lookup regionId = some observeId then
    some { ep with observeRegions := ep.observeRegions.erase regionId }
  else none

def deregisterDownstream (ep : Endpoint) (regionId downstreamId : Nat) : Option Endpoint :=
  match ep.captureRegions.lookup regionId with
  | none => some ep
  | some d =>
    match d.unsubscribe downstreamId with
    | (d', false) => some { ep with captureRegions := ep.captureRegions.insert regionId d' }
    | (_, true) => deregisterObserve { ep with captureRegions := ep.captureRegions.erase regionId } regionId d.observeId

def deregisterDownstreams (ep : Endpoint) (downstreams : List (Nat × Nat)) : Option Endpoint :=
  downstreams.foldlM (fun ep d => ep.deregisterDownstream d.1 d.2) ep

/-- `on_deregister`; the guards on the downstream's and the delegate's id are against a reused region. -/
def onDeregister (ep : Endpoint) : Deregister → Option Endpoint
  | .conn connId =>
    match ep.connections.lookup connId with
    | none => some ep
    | some conn => deregisterDownstreams { ep with connections := ep.connections.erase connId } conn.allDownstreams
  | .request connId requestId =>
    match ep.connections.lookup connId with
    | none => some ep
    | some conn =>
      let downstreams := conn.requestDownstreams requestId
      let conn' := downstreams.foldl (fun c d => c.unsubscribe requestId d.1) conn
      deregisterDownstreams { ep with connections := ep.connections.insert connId conn' } downstreams
  | .region connId requestId regionId =>
    match ep.connections.lookup connId with
    | none => some ep
    | some conn =>
      match conn.downstreams.lookup (requestId, regionId) with
      | none => some ep
      | some downstream =>
        deregisterDownstream { ep with connections := ep.connections.insert connId (conn.unsubscribe requestId regionId) }
          regionId downstream
  | .downstream connId requestId regionId downstreamId =>
    match ep.connections.lookup connId with
    | none => some ep
    | some conn =>
      if conn.downstreams.lookup (requestId, regionId) = some downstreamId then
        deregisterDownstream { ep with connections := ep.connections.insert connId (conn.unsubscribe requestId regionId) }
          regionId downstreamId
      else some ep
  | .delegate regionId observeId =>
    match ep.captureRegions.lookup regionId with
    | none => some ep
    | some d =>
      if d.observeId = observeId then
        let unsubscribeAll := fun conn => d.downstreams.foldl (fun (c : Conn) ds => c.unsubscribe ds.reqId regionId) conn
        deregisterObserve
          { ep with
            captureRegions := ep.captureRegions.erase regionId
            connections := Map.mapVal unsubscribeAll ep.connections }
          regionId d.observeId
      else some ep

def delegateFor (ep : Endpoint) (regionId : Nat) : Delegate :=
  (ep.captureRegions.lookup regionId).getD (.new ep.nextObserveId)

/-- `on_register`: `reader` is whether the store has the region, `pd` what PD answers for it.  An accepted request
leaves its scan task running. -/
def onRegister (ep : Endpoint) (request : ChangeDataRequest) (downstream : Downstream) (reader : Bool)
    (pd : Option (Bytes × Bytes)) (now : Nat) : Option (Endpoint × Option EventError) :=
  match ep.connections.lookup downstream.connId with
  | none => some (ep, none)
  | some conn =>
    if conn.validateClusterId && decide (ep.clusterId ≠ request.clusterId) then
      some (ep, some (.clusterIdMismatch ep.clusterId request.clusterId))
    else if !validateKvApi request.kvApi ep.apiV2 then some (ep, some (.compatibility "6.2.0"))
    else if ep.incrementalScanConcurrencyLimit ≤ ep.scanTaskCounter then
      some (ep, some (.serverIsBusy "too many pending incremental scans"))
    else if !reader then some (ep, some (.regionNotFound request.regionId))
    else
      match conn.subscribe request.requestId request.regionId downstream.id with
      | none => some (ep, some (.duplicateRequest request.regionId))
      | some conn' =>
        let isNewDelegate := (ep.captureRegions.lookup request.regionId).isNone
        let (rStart, rEnd) := pd.getD ([], [])
        let d := autoMatchPcr (ep.delegateFor request.regionId) ep.pcrRegistry rStart rEnd now
        let nextObserveId := if isNewDelegate then ep.nextObserveId + 1 else ep.nextObserveId
        match d.subscribe downstream with
        | none =>
          -- the connection forgets the request again; the delegate stays when it was there, with what PCR made of it
          let captureRegions :=
            if isNewDelegate then ep.captureRegions else ep.captureRegions.insert request.regionId d
          some ({ ep with captureRegions, nextObserveId }, some .epochNotMatch)
        | some d' =>
          let ep' :=
            { ep with
              captureRegions := ep.captureRegions.insert request.regionId d'
              connections := ep.connections.insert downstream.connId conn'
              scanTaskCounter := ep.scanTaskCounter + 1
              nextObserveId }
          if isNewDelegate then
            match ep.observeRegions.lookup request.regionId with
            | some _ => none
            | none =>
              some ({ ep' with observeRegions := ep.observeRegions.insert request.regionId d'.observeId }, none)
          else some (ep', none)

/-- `on_start_pcr_stream`: the stream's own sink is used only when no subscription brought one. -/
def onStartPcrStream (ep : Endpoint) (regionId eventSink bufferSize flushIntervalMs : Nat) (reader : Bool)
    (pd : Option (Bytes × Bytes)) (now : Nat) : Endpoint :=
  let isNewDelegate := (ep.captureRegions.lookup regionId).isNone
  if isNewDelegate && !reader then ep
  else
    let (rStart, rEnd) := pd.getD ([], [])
    let d := autoMatchPcr (ep.delegateFor regionId) ep.pcrRegistry rStart rEnd now
    let d := if d.hasPcr then d else d.enablePcr eventSink bufferSize flushIntervalMs now
    { ep with
      captureRegions := ep.captureRegions.insert regionId d
      observeRegions := if isNewDelegate then ep.observeRegions.insert regionId d.observeId else ep.observeRegions
      nextObserveId := if isNewDelegate then ep.nextObserveId + 1 else ep.nextObserveId }

def registerSpanSubscription (ep : Endpoint) (sub : SpanSubscription) (now : Nat) : Endpoint :=
  -- the registry is asked before the subscription is in it, and about the whole key space
  let hasSub := (ep.pcrRegistry.matchRegion [] []).isSome
  { ep with
    captureRegions :=
      if hasSub then
        Map.mapVal (fun d => d.enablePcr sub.sink sub.eventBufferSize sub.eventFlushIntervalMs now) ep.captureRegions
      else ep.captureRegions
    pcrRegistry := ⟨[sub]⟩ }

end Endpoint

/-! ## The endpoint with PD -/

/-- A region as PD has it: its key range is not empty. -/
structure CurrentRegion extends PdRegion where
  nonempty : endKey = [] ∨ startKey < endKey

def CurrentRegion.keys (r : CurrentRegion) : Bytes × Bytes := (r.startKey, r.endKey)

structure Source where
  endpoint : Endpoint
  pd : Nat → CurrentRegion

open Cdc.Source

/-- The endpoint's tasks with what the store and the clock answer them, and the two things that happen around them: a
scan task ends, a region gets another range. -/
inductive Task
  | openConn (connId : Nat) (validateClusterId : Bool)
  | register (request : ChangeDataRequest) (downstream : Downstream) (reader : Bool) (now : Nat)
  | startPcrStream (regionId eventSink bufferSize flushIntervalMs : Nat) (reader : Bool) (now : Nat)
  | registerSpanSubscription (sub : SpanSubscription) (now : Nat)
  | deregister (deregister : Deregister)
  | scanTaskDone
  | regionChanged (regionId : Nat) (region : CurrentRegion)

def Source.run (s : Source) : Task → Option Source
  | .openConn connId validateClusterId =>
    some { s with
      endpoint := { s.endpoint with connections := s.endpoint.connections.insert connId ⟨validateClusterId, ∅⟩ } }
  | .register request downstream reader now =>
    (s.endpoint.onRegister request downstream reader (some (s.pd request.regionId).keys) now).map
      fun answer => { s with endpoint := answer.1 }
  | .startPcrStream regionId eventSink bufferSize flushIntervalMs reader now =>
    some { s with
      endpoint :=
        s.endpoint.onStartPcrStream regionId eventSink bufferSize flushIntervalMs reader (some (s.pd regionId).keys) now }
  | .registerSpanSubscription sub now => some { s with endpoint := s.endpoint.registerSpanSubscription sub now }
  | .deregister deregister => (s.endpoint.onDeregister deregister).map fun endpoint => { s with endpoint }
  | .scanTaskDone => some { s with endpoint := { s.endpoint with scanTaskCounter := s.endpoint.scanTaskCounter - 1 } }
  | .regionChanged regionId region => some { s with pd := Function.update s.pd regionId region }

def Source.Step (s : Source) (t : Task) (s' : Source) : Prop := s.run t = some s'

/-- **Exactly the delegates of regions that meet the span are attached to the subscription's sink.** -/
def Covered (s : Source) : Prop :=
  ∀ sub ∈ s.endpoint.pcrRegistry.subscriptions, ∀ regionId d, s.endpoint.captureRegions.lookup regionId = some d →
    (d.AttachedTo sub.sink ↔ Meets (s.pd regionId).toPdRegion sub.startKey sub.endKey)

/-- **What a task has to meet** for the delegates to stay attached as they should.  A first subscription attaches no
delegate and a later one attaches them all. -/
def KeepsCovered (s : Source) : Task → Prop
  | .registerSpanSubscription sub _ =>
    (keyRange sub.startKey sub.endKey).Nonempty ∧
    ∀ regionId d, s.endpoint.captureRegions.lookup regionId = some d →
      (s.endpoint.pcrRegistry.subscriptions ≠ [] ∨ d.AttachedTo sub.sink ↔
        Meets (s.pd regionId).toPdRegion sub.startKey sub.endKey)
  | .startPcrStream regionId eventSink _ _ _ _ =>
    ∀ sub ∈ s.endpoint.pcrRegistry.subscriptions, sub.sink = eventSink →
      Meets (s.pd regionId).toPdRegion sub.startKey sub.endKey
  | .regionChanged regionId region =>
    ∀ sub ∈ s.endpoint.pcrRegistry.subscriptions, regionId ∈ s.endpoint.captureRegions →
      (Meets region.toPdRegion sub.startKey sub.endKey ↔ Meets (s.pd regionId).toPdRegion sub.startKey sub.endKey)
  | _ => True

/-! ## No assertion fails -/

/-- **The observer has the captured regions**, each under its delegate's observe id. -/
def Observed (ep : Endpoint) : Prop :=
  ∀ regionId, ep.observeRegions.lookup regionId = (ep.captureRegions.lookup regionId).map Delegate.observeId

/-- **What a task but a span subscription does**: every delegate after it was there before or is one of `touched`, and
its PCR is as it was there. -/
structure Changes (touched : Nat → Delegate → Prop) (ep ep' : Endpoint) : Prop where
  pcrRegistry : ep'.pcrRegistry = ep.pcrRegistry
  delegates : ∀ regionId d', ep'.captureRegions.lookup regionId = some d' →
    ∃ d, (ep.captureRegions.lookup regionId = some d ∨ touched regionId d) ∧ d.SamePcr d'

abbrev Shrinks (ep ep' : Endpoint) : Prop := Changes (fun _ _ => False) ep ep'

variable {touched : Nat → Delegate → Prop} {ep' ep : Endpoint}

theorem Changes.of_eq (hr : ep'.pcrRegistry = ep.pcrRegistry)
    (hc : ep'.captureRegions = ep.captureRegions) : Changes touched ep ep' :=
  ⟨hr, fun _ d' h => ⟨d', .inl (hc ▸ h), rfl, rfl⟩⟩

variable {regionId eventSink bufferSize flushIntervalMs now : Nat} {d d' : Delegate}

theorem Changes.insert
    (hr : ep'.pcrRegistry = ep.pcrRegistry) (hc : ep'.captureRegions = ep.captureRegions.insert regionId d')
    (hd : ep.captureRegions.lookup regionId = some d ∨ touched regionId d) (hs : d.SamePcr d') :
    Changes touched ep ep' := by
  refine ⟨hr, fun id e he => ?_⟩
  rw [hc] at he
  rcases Map.lookup_insert_cases he with ⟨rfl, rfl⟩ | he
  · exact ⟨d, hd, hs⟩
  · exact ⟨e, .inl he, rfl, rfl⟩

theorem Shrinks.trans {ep'' : Endpoint} (h : Shrinks ep ep') (h' : Shrinks ep' ep'') : Shrinks ep ep'' where
  pcrRegistry := h'.pcrRegistry.trans h.pcrRegistry
  delegates regionId d'' hd'' := by
    obtain ⟨d', hd', hs'⟩ := h'.delegates regionId d'' hd''
    obtain ⟨d, hd, hs⟩ := h.delegates regionId d' (hd'.resolve_right id)
    exact ⟨d, hd, hs'.1.trans hs.1, hs'.2.trans hs.2⟩

theorem Observed.insert (h : Observed ep) (ho : ep'.observeRegions = ep.observeRegions.insert regionId d.observeId)
    (hc : ep'.captureRegions = ep.captureRegions.insert regionId d) : Observed ep' := by
  intro id
  rw [ho, hc, Map.lookup_insert, Map.lookup_insert, h id]
  split <;> rfl

theorem Observed.replace (h : Observed ep)
    (hd : ep.captureRegions.lookup regionId = some d) (he : d'.observeId = d.observeId)
    (ho : ep'.observeRegions = ep.observeRegions)
    (hc : ep'.captureRegions = ep.captureRegions.insert regionId d') : Observed ep' := by
  intro id
  rw [ho, hc, Map.lookup_insert, h id]
  split
  · rename_i heq
    rw [heq, hd]
    exact congrArg some he.symm
  · rfl

namespace Endpoint

variable {ep : Endpoint}

theorem deregisterObserve_erase (h : Observed ep)
    (hd : ep.captureRegions.lookup regionId = some d) (connections : Map Nat Conn) :
    ∃ ep', deregisterObserve { ep with captureRegions := ep.captureRegions.erase regionId, connections } regionId
      d.observeId = some ep' ∧ Observed ep' ∧ Shrinks ep ep' := by
  have hobs : ep.observeRegions.lookup regionId = some d.observeId := by rw [h regionId, hd]; rfl
  refine ⟨_, if_pos hobs, fun id => ?_, rfl, fun id d' hd' => ?_⟩
  · rw [Map.lookup_erase, Map.lookup_erase, h id]
    split <;> rfl
  · exact ⟨d', .inl (Map.lookup_of_erase hd'), rfl, rfl⟩

theorem deregisterDownstream_spec (h : Observed ep) (regionId downstreamId : Nat) :
    ∃ ep', ep.deregisterDownstream regionId downstreamId = some ep' ∧ Observed ep' ∧ Shrinks ep ep' := by
  unfold deregisterDownstream
  split
  · exact ⟨ep, rfl, h, .of_eq rfl rfl⟩
  rename_i d hd
  split
  · rename_i d' hu
    have hd' : d'.observeId = d.observeId ∧ d.SamePcr d' := by
      have he : (d.unsubscribe downstreamId).1 = d' := by rw [hu]
      rw [← he]
      exact ⟨rfl, rfl, rfl⟩
    exact ⟨_, rfl, h.replace hd hd'.1 rfl rfl, .insert rfl rfl (.inl hd) hd'.2⟩
  · exact deregisterObserve_erase h hd ep.connections

theorem deregisterDownstreams_spec : ∀ (l : List (Nat × Nat)) {ep : Endpoint}, Observed ep →
    ∃ ep', ep.deregisterDownstreams l = some ep' ∧ Observed ep' ∧ Shrinks ep ep'
  | [], ep, h => ⟨ep, rfl, h, .of_eq rfl rfl⟩
  | a :: l, ep, h => by
    obtain ⟨ep₁, h₁, hobs₁, hs₁⟩ := deregisterDownstream_spec h a.1 a.2
    obtain ⟨ep', h', hobs', hs'⟩ := deregisterDownstreams_spec l hobs₁
    refine ⟨ep', ?_, hobs', hs₁.trans hs'⟩
    rw [deregisterDownstreams, List.foldlM_cons, h₁]
    exact h'

theorem onDeregister_spec (h : Observed ep) (t : Deregister) :
    ∃ ep', ep.onDeregister t = some ep' ∧ Observed ep' ∧ Shrinks ep ep' := by
  have stays : ∃ ep', some ep = some ep' ∧ Observed ep' ∧ Shrinks ep ep' := ⟨ep, rfl, h, .of_eq rfl rfl⟩
  -- the connections change first, and neither `Observed` nor `Shrinks` reads them
  have hobs (connections : Map Nat Conn) : Observed { ep with connections } := h
  have one (connections : Map Nat Conn) (regionId downstreamId : Nat) :=
    deregisterDownstream_spec (hobs connections) regionId downstreamId
  have many (connections : Map Nat Conn) (l : List (Nat × Nat)) :=
    deregisterDownstreams_spec l (hobs connections)
  have reframe {connections : Map Nat Conn} {r : Option Endpoint}
      (hr : ∃ ep', r = some ep' ∧ Observed ep' ∧ Shrinks { ep with connections } ep') :
      ∃ ep', r = some ep' ∧ Observed ep' ∧ Shrinks ep ep' := by
    obtain ⟨ep', h₁, h₂, h₃⟩ := hr
    exact ⟨ep', h₁, h₂, h₃.pcrRegistry, h₃.delegates⟩
  cases t with
  | conn connId | request connId requestId =>
    dsimp only [onDeregister]
    split
    · exact stays
    · exact reframe (many _ _)
  | region connId requestId regionId =>
    dsimp only [onDeregister]
    split
    · exact stays
    split
    · exact stays
    · exact reframe (one _ _ _)
  | downstream connId requestId regionId downstreamId =>
    dsimp only [onDeregister]
    split
    · exact stays
    split
    · exact reframe (one _ _ _)
    · exact stays
  | delegate regionId observeId =>
    dsimp only [onDeregister]
    split
    · exact stays
    rename_i d hd
    split
    · exact deregisterObserve_erase h hd _
    · exact stays

@[simp] theorem observeId_autoMatchPcr {registry : PcrRegistry} {rStart rEnd : Bytes} :
    (autoMatchPcr d registry rStart rEnd now).observeId = d.observeId := by
  unfold autoMatchPcr
  split <;> rfl

theorem delegateFor_of_lookup (hd : ep.captureRegions.lookup regionId = some d) :
    ep.delegateFor regionId = d := by
  rw [delegateFor, hd]; rfl

/-- **A registration** changes at most the region's delegate, to what the registry makes of it. -/
theorem onRegister_spec (h : Observed ep) (request : ChangeDataRequest) (downstream : Downstream) (reader : Bool)
    (keys : Bytes × Bytes) (now : Nat) :
    ∃ answer, ep.onRegister request downstream reader (some keys) now = some answer ∧ Observed answer.1 ∧
      Changes (fun id d => id = request.regionId ∧
        d = autoMatchPcr (ep.delegateFor request.regionId) ep.pcrRegistry keys.1 keys.2 now) ep answer.1 := by
  unfold onRegister
  -- the answers with an error
  iterate 6
    split
    · exact ⟨_, rfl, h, .of_eq rfl rfl⟩
  dsimp only [Option.getD_some]
  cases hcap : ep.captureRegions.lookup request.regionId with
  | none =>
    -- a new delegate: the observer cannot have the region
    have hobs : ep.observeRegions.lookup request.regionId = none := by rw [h, hcap]; rfl
    split
    · exact ⟨_, rfl, h, .of_eq rfl rfl⟩
    rename_i d' hsub
    rw [hobs]
    exact ⟨_, rfl, h.insert rfl rfl, .insert rfl rfl (.inr ⟨rfl, rfl⟩) (subscribe_same hsub).1⟩
  | some d =>
    have hd := delegateFor_of_lookup hcap
    split
    · exact ⟨_, rfl, h.replace hcap (by simp [hd]) rfl rfl, .insert rfl rfl (.inr ⟨rfl, rfl⟩) ⟨rfl, rfl⟩⟩
    rename_i d' hsub
    refine ⟨_, rfl, h.replace hcap ?_ rfl rfl, .insert rfl rfl (.inr ⟨rfl, rfl⟩) (subscribe_same hsub).1⟩
    rw [(subscribe_same hsub).2, observeId_autoMatchPcr, hd]

def startedDelegate (ep : Endpoint) (regionId eventSink bufferSize flushIntervalMs : Nat) (keys : Bytes × Bytes)
    (now : Nat) : Delegate :=
  let d := autoMatchPcr (ep.delegateFor regionId) ep.pcrRegistry keys.1 keys.2 now
  if d.hasPcr then d else d.enablePcr eventSink bufferSize flushIntervalMs now

theorem observeId_startedDelegate {keys : Bytes × Bytes} :
    (ep.startedDelegate regionId eventSink bufferSize flushIntervalMs keys now).observeId =
      (ep.delegateFor regionId).observeId := by
  unfold startedDelegate
  dsimp only
  split
  · rw [observeId_autoMatchPcr]
  · exact observeId_autoMatchPcr

theorem onStartPcrStream_spec (h : Observed ep) (regionId eventSink bufferSize flushIntervalMs : Nat) (reader : Bool)
    (keys : Bytes × Bytes) (now : Nat) :
    Observed (ep.onStartPcrStream regionId eventSink bufferSize flushIntervalMs reader (some keys) now) ∧
      Changes (fun id d => id = regionId ∧
          d = ep.startedDelegate regionId eventSink bufferSize flushIntervalMs keys now)
        ep (ep.onStartPcrStream regionId eventSink bufferSize flushIntervalMs reader (some keys) now) := by
  dsimp only [onStartPcrStream]
  split
  · exact ⟨h, .of_eq rfl rfl⟩
  refine ⟨?_, .insert rfl rfl (.inr ⟨rfl, rfl⟩) ⟨rfl, rfl⟩⟩
  cases hcap : ep.captureRegions.lookup regionId with
  | none => exact h.insert rfl rfl
  | some d =>
    refine h.replace hcap ?_ rfl rfl
    rw [← delegateFor_of_lookup hcap]
    exact observeId_startedDelegate

end Endpoint

variable {s : Source}

/-! ## Which delegates are attached -/

structure OneSpan (registry : PcrRegistry) : Prop where
  one : ∀ sub ∈ registry.subscriptions, registry.subscriptions = [sub]
  nonempty : ∀ sub ∈ registry.subscriptions, (keyRange sub.startKey sub.endKey).Nonempty

theorem CurrentRegion.proper (r : CurrentRegion) {ss se : Bytes} (h : (keyRange ss se).Nonempty) :
    Proper r.toPdRegion ss se :=
  ⟨keyRange_nonempty.2 r.nonempty, h⟩

section AutoMatch

variable {registry : PcrRegistry} {sub : SpanSubscription}

theorem matchRegion_single (h : OneSpan registry) (hsub : sub ∈ registry.subscriptions) (r : CurrentRegion) :
    registry.matchRegion r.startKey r.endKey = some (sub.sink, sub.eventBufferSize, sub.eventFlushIntervalMs) ∧
        Meets r.toPdRegion sub.startKey sub.endKey ∨
      registry.matchRegion r.startKey r.endKey = none ∧ ¬ Meets r.toPdRegion sub.startKey sub.endKey := by
  have hiff : (registry.matchRegion r.startKey r.endKey).isSome ↔ Meets r.toPdRegion sub.startKey sub.endKey := by
    rw [matchRegion_isSome registry r.toPdRegion fun sub' h' => r.proper (h.nonempty sub' h'), h.one sub hsub]
    simp
  cases hm : registry.matchRegion r.startKey r.endKey with
  | none =>
    refine .inr ⟨rfl, fun hmeets => ?_⟩
    rw [hm] at hiff
    cases hiff.2 hmeets
  | some found =>
    rw [hm] at hiff
    refine .inl ⟨?_, hiff.1 rfl⟩
    unfold PcrRegistry.matchRegion at hm
    rw [h.one sub hsub, List.find?_singleton] at hm
    split at hm
    · exact hm.symm
    · cases hm

/-- **A delegate matched against the registry** is attached when its region meets the span; otherwise it is as it was. -/
theorem autoMatchPcr_attachedTo (h : OneSpan registry) (hsub : sub ∈ registry.subscriptions) (r : CurrentRegion) :
    (autoMatchPcr d registry r.startKey r.endKey now).AttachedTo sub.sink ↔
      Meets r.toPdRegion sub.startKey sub.endKey ∨ d.AttachedTo sub.sink := by
  unfold autoMatchPcr
  rcases matchRegion_single h hsub r with ⟨hm, hmeets⟩ | ⟨hm, hmeets⟩
  · rw [hm]
    simp [hmeets, attachedTo_enablePcr]
  rw [hm]
  simp [hmeets]

end AutoMatch

def RightlyAttached (s : Source) (regionId : Nat) (d : Delegate) : Prop :=
  ∀ sub ∈ s.endpoint.pcrRegistry.subscriptions,
    (d.AttachedTo sub.sink ↔ Meets (s.pd regionId).toPdRegion sub.startKey sub.endKey)

variable {sub : SpanSubscription}

theorem Covered.delegateFor (hc : Covered s) (hsub : sub ∈ s.endpoint.pcrRegistry.subscriptions) (regionId : Nat)
    (h : (s.endpoint.delegateFor regionId).AttachedTo sub.sink) :
    Meets (s.pd regionId).toPdRegion sub.startKey sub.endKey := by
  unfold Endpoint.delegateFor at h
  cases hl : s.endpoint.captureRegions.lookup regionId with
  | none =>
    rw [hl] at h
    exact absurd h (not_attachedTo_new _)
  | some d =>
    rw [hl] at h
    exact (hc sub hsub regionId d hl).1 h

theorem Covered.changes (hc : Covered s)
    (h : Changes touched s.endpoint ep') (ht : ∀ regionId d, touched regionId d → RightlyAttached s regionId d) :
    Covered { s with endpoint := ep' } := by
  intro sub hsub regionId d' hd'
  rw [h.pcrRegistry] at hsub
  obtain ⟨d, hd, hs⟩ := h.delegates regionId d' hd'
  rw [hs.attachedTo]
  rcases hd with hd | hd
  · exact hc sub hsub regionId d hd
  · exact ht regionId d hd sub hsub

theorem rightlyAttached_autoMatchPcr (hc : Covered s) (hone : OneSpan s.endpoint.pcrRegistry) (regionId now : Nat) :
    RightlyAttached s regionId (autoMatchPcr (s.endpoint.delegateFor regionId) s.endpoint.pcrRegistry
      (s.pd regionId).startKey (s.pd regionId).endKey now) := by
  intro sub hsub
  rw [autoMatchPcr_attachedTo hone hsub]
  exact or_iff_left_of_imp (hc.delegateFor hsub regionId)

theorem rightlyAttached_startedDelegate (hc : Covered s) (hone : OneSpan s.endpoint.pcrRegistry)
    (hk : ∀ sub ∈ s.endpoint.pcrRegistry.subscriptions, sub.sink = eventSink →
      Meets (s.pd regionId).toPdRegion sub.startKey sub.endKey) :
    RightlyAttached s regionId
      (s.endpoint.startedDelegate regionId eventSink bufferSize flushIntervalMs (s.pd regionId).keys now) := by
  intro sub hsub
  have hauto := rightlyAttached_autoMatchPcr hc hone regionId now sub hsub
  unfold startedDelegate
  dsimp only [CurrentRegion.keys]
  split
  · exact hauto
  rename_i hno
  -- without PCR after the match the region is outside, so the stream's own sink must not be the subscription's
  rw [attachedTo_enablePcr]
  constructor
  · intro heq
    exact hk sub hsub heq.symm
  · intro hmeets
    exact absurd (hauto.2 hmeets).1 hno

theorem covered_registerSpanSubscription (hk : KeepsCovered s (.registerSpanSubscription sub now)) :
    Covered { s with endpoint := s.endpoint.registerSpanSubscription sub now } := by
  intro sub' hsub' regionId d' hd'
  rw [List.mem_singleton.1 hsub']
  dsimp only [registerSpanSubscription] at hd' ⊢
  have hall : (s.endpoint.pcrRegistry.matchRegion [] []).isSome ↔ s.endpoint.pcrRegistry.subscriptions ≠ [] := by
    unfold PcrRegistry.matchRegion
    cases s.endpoint.pcrRegistry.subscriptions <;> simp
  split at hd'
  · rename_i hsome
    rw [Map.lookup_mapVal, Option.map_eq_some_iff] at hd'
    obtain ⟨d, hd, rfl⟩ := hd'
    rw [← hk.2 regionId d hd, attachedTo_enablePcr]
    exact iff_of_true rfl (.inl (hall.1 hsome))
  · rename_i hnone
    rw [← hk.2 regionId d' hd', ← hall]
    exact (or_iff_right hnone).symm

/-- **One task** runs, keeps the observer with the delegates and, where it meets `KeepsCovered`, these attached as they
should be. -/
theorem Source.run_spec (h : Observed s.endpoint) (t : Task) : ∃ s', s.run t = some s' ∧ Observed s'.endpoint ∧
    (OneSpan s.endpoint.pcrRegistry → Covered s → KeepsCovered s t →
      OneSpan s'.endpoint.pcrRegistry ∧ Covered s') := by
  cases t with
  | openConn | scanTaskDone => exact ⟨_, rfl, h, fun hone hc _ => ⟨hone, hc⟩⟩
  | register request downstream reader now =>
    obtain ⟨answer, ha, hobs, hch⟩ :=
      onRegister_spec h request downstream reader (s.pd request.regionId).keys now
    refine ⟨{ s with endpoint := answer.1 }, by rw [run, ha]; rfl, hobs, fun hone hc _ => ?_⟩
    refine ⟨hch.pcrRegistry ▸ hone, hc.changes hch ?_⟩
    rintro _ _ ⟨rfl, rfl⟩
    exact rightlyAttached_autoMatchPcr hc hone request.regionId now
  | startPcrStream regionId eventSink bufferSize flushIntervalMs reader now =>
    obtain ⟨hobs, hch⟩ := onStartPcrStream_spec h regionId eventSink bufferSize flushIntervalMs reader
      (s.pd regionId).keys now
    refine ⟨_, rfl, hobs, fun hone hc hk => ⟨hch.pcrRegistry ▸ hone, hc.changes hch ?_⟩⟩
    rintro _ _ ⟨rfl, rfl⟩
    exact rightlyAttached_startedDelegate hc hone hk
  | registerSpanSubscription sub now =>
    refine ⟨_, rfl, fun id => ?_, fun _ _ hk => ⟨⟨?_, ?_⟩, covered_registerSpanSubscription hk⟩⟩
    · dsimp only [registerSpanSubscription]
      rw [h id]
      split
      · rw [Map.lookup_mapVal, Option.map_map]; rfl
      · rfl
    · intro sub' hsub'
      rw [List.mem_singleton.1 hsub']; rfl
    · intro sub' hsub'
      rw [List.mem_singleton.1 hsub']; exact hk.1
  | deregister t =>
    obtain ⟨ep', he, hobs, hch⟩ := onDeregister_spec h t
    refine ⟨{ s with endpoint := ep' }, by rw [run, he]; rfl, hobs, fun hone hc _ => ?_⟩
    exact ⟨hch.pcrRegistry ▸ hone, hc.changes hch fun _ _ hf => hf.elim⟩
  | regionChanged regionId region =>
    refine ⟨_, rfl, h, fun hone hc hk => ⟨hone, fun sub hsub id d hd => ?_⟩⟩
    rw [hc sub hsub id d hd]
    dsimp only [Function.update]
    split
    · rename_i heq
      subst heq
      exact (hk sub hsub (AList.lookup_isSome.1 (hd ▸ rfl))).symm
    · rfl

theorem Source.exists_run : ∀ (tasks : List Task) {s : Source}, Observed s.endpoint →
    ∃ s', Run Source.Step always s tasks s' ∧ Observed s'.endpoint
  | [], s, h => ⟨s, .nil s, h⟩
  | t :: tasks, s, h => by
    obtain ⟨s₁, hrun, hobs, _⟩ := run_spec h t
    obtain ⟨s', hr, hobs'⟩ := exists_run tasks hobs
    exact ⟨s', .cons trivial hrun hr, hobs'⟩

def Source.new (clusterId : Nat) (apiV2 : Bool) (limit : Nat) (pd : Nat → CurrentRegion) : Source :=
  ⟨.new clusterId apiV2 limit, pd⟩

/-- **No assertion of the endpoint fails**: every list of tasks runs to its end and leaves the observer with the regions
of the delegates. -/
theorem Source.runs_observed (clusterId : Nat) (apiV2 : Bool) (limit : Nat) (pd : Nat → CurrentRegion) (tasks : List Task) :
    ∃ s, Run Source.Step always (.new clusterId apiV2 limit pd) tasks s ∧ Observed s.endpoint :=
  exists_run tasks fun _ => rfl

/-- **In every run whose tasks meet `KeepsCovered`**, exactly the delegates of the regions that meet the span are
attached. -/
theorem covered_of_keeps {clusterId limit : Nat} {apiV2 : Bool} {pd : Nat → CurrentRegion} {tasks : List Task}
    {s : Source} (h : Run Source.Step KeepsCovered (Source.new clusterId apiV2 limit pd) tasks s) : Covered s := by
  have hinv : Observed s.endpoint ∧ OneSpan s.endpoint.pcrRegistry ∧ Covered s := by
    refine h.invariant (I := fun s => Observed s.endpoint ∧ OneSpan s.endpoint.pcrRegistry ∧ Covered s) ?_ ?_
    · rintro s t s' ⟨hobs, hone, hc⟩ hk hstep
      obtain ⟨s₁, hrun, hobs', hcov⟩ := run_spec hobs t
      cases hrun.symm.trans hstep
      exact ⟨hobs', hcov hone hc hk⟩
    · exact ⟨fun _ => rfl, ⟨nofun, nofun⟩, nofun⟩
  exact hinv.2.2

def twoRegions (regionId : Nat) : CurrentRegion :=
  if regionId = 1 then ⟨⟨1, [98], [99], 1, 1⟩, .inr (by decide)⟩ else ⟨⟨regionId, [120], [], 1, 1⟩, .inl rfl⟩

theorem covered_of_keeps_subscribed_first : ∃ s, Run Source.Step KeepsCovered (Source.new 1 false 10 twoRegions)
      [.registerSpanSubscription ⟨[97], [100], 7, 1024, 150⟩ 0, .startPcrStream 1 5 1024 150 true 1,
        .startPcrStream 2 5 1024 150 true 2] s ∧ Covered s := by
  have own {sub : SpanSubscription} (h : sub ∈ [⟨[97], [100], 7, 1024, 150⟩]) : sub.sink ≠ 5 := by
    rw [List.mem_singleton.1 h]; decide
  refine Exists.imp (fun s hrun => ⟨hrun, covered_of_keeps hrun⟩)
    ⟨_, .cons ⟨keyRange_nonempty.2 (.inr (by decide)), ?_⟩ rfl (.cons ?_ rfl (.cons ?_ rfl (.nil _)))⟩
  · intro _ _ hd
    cases hd
  all_goals exact fun _ hsub heq => absurd heq (own hsub)

theorem not_covered_registered_first : ∃ s, Run Source.Step always (Source.new 1 false 10 twoRegions)
      [.openConn 1 true, .register ⟨1, 1, 1, .tiDb⟩ ⟨1, 1, 1, 1⟩ true 0,
        .registerSpanSubscription ⟨[97], [100], 7, 1024, 150⟩ 1] s ∧ ¬ Covered s := by
  refine ⟨_, .of_foldlM rfl, fun hc => ?_⟩
  have hmeets : Meets (twoRegions 1).toPdRegion [97] [100] :=
    (meets_iff (by decide)).2 ⟨fun he => absurd he.2 (by decide), .inr (by decide)⟩
  have hatt := (hc ⟨[97], [100], 7, 1024, 150⟩ (List.mem_singleton.2 rfl) 1 _ rfl).2 hmeets
  exact absurd hatt (by decide)

end Cdc
end Tikv
