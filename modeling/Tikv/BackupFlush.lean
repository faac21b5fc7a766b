import Tikv.BackupCheckpoint
import Tikv.LibBytes
import Tikv.LibRun
/-!
# BackupFlush — the flush of a log backup (`StreamTaskHandler::do_flush`)

The events of a task are written to temporary files.  A flush freezes the checkpoints, moves the temporary files to the
flushing files, uploads them, writes a metadata file that lists them and clears them; then the checkpoints are
published.  A flush that fails leaves its flushing files to the next one, which uploads these and leaves the temporary
files where they are.

`Sound` is the soundness of the resolved timestamps.  A published checkpoint is backed by listed files (`backed_of_run`)
in the runs in which no flush publishes for files that it did not take (`Clean`); a retry that found new events
publishes a checkpoint above an event that is in no uploaded file (`not_backed`).
-/
namespace Tikv
namespace Backup

open Lib List

inductive FileCf
  | default
  | write
deriving DecidableEq, Repr

inductive CmdType
  | put
  | delete
deriving DecidableEq, Repr

/-- `ts` is the timestamp that the key ends with, `tableId` what `decode_table_id` reads in it (0 if it cannot). -/
structure ApplyEvent where
  key : Bytes
  value : Bytes
  cf : FileCf
  cmdType : CmdType
  tableId : Int
  ts : Nat
deriving DecidableEq, Repr

structure ApplyEvents where
  events : List ApplyEvent
  regionId : Nat
  regionResolvedTs : Nat

def ApplyEvent.isMeta (e : ApplyEvent) : Bool := e.key.head? == some 0x6d

structure TempFileKey where
  tableId : Int
  regionId : Nat
  cf : FileCf
  cmdType : CmdType
  isMeta : Bool
deriving DecidableEq, Repr

def TempFileKey.of (kv : ApplyEvent) (regionId : Nat) : TempFileKey :=
  ⟨if kv.isMeta then 0 else kv.tableId, regionId, kv.cf, kv.cmdType, kv.isMeta⟩

/-! ## Files -/

structure DataFile where
  events : List ApplyEvent
  resolvedTs : Nat
deriving DecidableEq, Repr

namespace DataFile

def new : DataFile := ⟨[], 0⟩

def onEvents (f : DataFile) (events : List ApplyEvent) (regionResolvedTs : Nat) : DataFile :=
  events.foldl (fun f event => ⟨f.events ++ [event], max f.resolvedTs regionResolvedTs⟩) f

theorem events_onEvents (regionResolvedTs : Nat) : ∀ (events : List ApplyEvent) (f : DataFile),
    (f.onEvents events regionResolvedTs).events = f.events ++ events
  | [], f => (append_nil _).symm
  | e :: events, f => by
    refine (events_onEvents regionResolvedTs events _).trans ?_
    rw [append_assoc, singleton_append]

/-- The encoded events: a length of four bytes before each key and each value. -/
def fileSize (f : DataFile) : Nat := (f.events.map fun e => 4 + e.key.length + (4 + e.value.length)).sum

def minTs (f : DataFile) : Nat := f.events.foldl (fun ts e => min ts e.ts) (2 ^ 64 - 1)

def maxTs (f : DataFile) : Nat := f.events.foldl (fun ts e => max ts e.ts) 0

end DataFile

structure DataFileInfo where
  key : TempFileKey
  minTs : Nat
  maxTs : Nat
  resolvedTs : Nat
  numberOfEntries : Nat
  length : Nat
deriving DecidableEq, Repr

abbrev LogFile := TempFileKey × DataFile

def generateMetadata (f : LogFile) : DataFileInfo :=
  ⟨f.1, f.2.minTs, f.2.maxTs, f.2.resolvedTs, f.2.events.length, f.2.fileSize⟩

structure DataFileGroup where
  path : Nat
  dataFilesInfo : List DataFileInfo
  minTs : Nat
  maxTs : Nat
  minResolvedTs : Nat
deriving DecidableEq, Repr

def minOf (l : List Nat) : Option Nat := l.foldl (fun m x => some (m.elim x (min x))) none

def maxOf (l : List Nat) : Option Nat := l.foldl (fun m x => some (m.elim x (max x))) none

def mergedFileInfo (path : Nat) (files : List LogFile) : DataFileGroup :=
  let infos := files.map generateMetadata
  ⟨path, infos, (minOf (infos.map (·.minTs))).getD 0, (maxOf (infos.map (·.maxTs))).getD 0,
    (minOf (infos.map (·.resolvedTs))).getD 0⟩

structure MetadataInfo where
  fileGroups : List DataFileGroup
  minResolvedTs : Option Nat
  minTs : Option Nat
  maxTs : Option Nat
  storeId : Nat
deriving DecidableEq, Repr

namespace MetadataInfo

def new (storeId : Nat) : MetadataInfo := ⟨[], none, none, none, storeId⟩

def push (m : MetadataInfo) (file : DataFileGroup) : MetadataInfo :=
  { m with
    fileGroups := m.fileGroups ++ [file]
    minResolvedTs := some (m.minResolvedTs.elim file.minResolvedTs (min · file.minResolvedTs))
    minTs := some (m.minTs.elim file.minTs (min · file.minTs))
    maxTs := some (m.maxTs.elim file.maxTs (max · file.maxTs)) }

end MetadataInfo

structure ExternalStorage where
  objects : Map Nat (List LogFile)
  metas : List MetadataInfo

/-- **An event of a region is in an uploaded file that an uploaded metadata file lists.** -/
def ExternalStorage.Lists (s : ExternalStorage) (a : Nat × ApplyEvent) : Prop :=
  ∃ m ∈ s.metas, ∃ group ∈ m.fileGroups, ∃ files ∈ (s.objects.lookup group.path).toList, ∃ f ∈ files,
    f.1.regionId = a.1 ∧ a.2 ∈ f.2.events ∧ generateMetadata f ∈ group.dataFilesInfo

instance decidableLists (s : ExternalStorage) (a : Nat × ApplyEvent) : Decidable (s.Lists a) :=
  inferInstanceAs (Decidable (∃ m ∈ s.metas, ∃ group ∈ m.fileGroups,
    ∃ files ∈ (s.objects.lookup group.path).toList, ∃ f ∈ files,
      f.1.regionId = a.1 ∧ a.2 ∈ f.2.events ∧ generateMetadata f ∈ group.dataFilesInfo))

/-! ## The handler of a task -/

structure StreamTaskHandler where
  files : Map TempFileKey DataFile
  flushingFiles : List LogFile
  flushingMetaFiles : List LogFile
  mergedFileSizeLimit : Nat

open StreamTaskHandler

namespace StreamTaskHandler

def new (mergedFileSizeLimit : Nat) : StreamTaskHandler := ⟨∅, [], [], mergedFileSizeLimit⟩

def onEventsOfKey (regionResolvedTs : Nat) (files : Map TempFileKey DataFile) (part : TempFileKey × List ApplyEvent) :
    Map TempFileKey DataFile :=
  files.insert part.1 (((files.lookup part.1).getD .new).onEvents part.2 regionResolvedTs)

def partitionByTableKey (kv : ApplyEvents) : List (TempFileKey × List ApplyEvent) :=
  (kv.events.map fun e => TempFileKey.of e kv.regionId).eraseDups.map fun key =>
    (key, kv.events.filter fun e => TempFileKey.of e kv.regionId == key)

def onEvents (h : StreamTaskHandler) (kv : ApplyEvents) : StreamTaskHandler :=
  { h with files := (partitionByTableKey kv).foldl (onEventsOfKey kv.regionResolvedTs) h.files }

def flushing (h : StreamTaskHandler) : List LogFile := h.flushingFiles ++ h.flushingMetaFiles

def moveToFlushingFiles (h : StreamTaskHandler) : StreamTaskHandler :=
  if h.flushingFiles ≠ [] ∨ h.flushingMetaFiles ≠ [] then h
  else
    let drained := h.files.entries.map fun x => (x.1, x.2)
    { h with
      files := ∅
      flushingFiles := drained.filter fun f => !f.1.isMeta
      flushingMetaFiles := drained.filter fun f => f.1.isMeta }

def clearFlushingFiles (h : StreamTaskHandler) : StreamTaskHandler :=
  { h with flushingFiles := [], flushingMetaFiles := [] }

/-- The loop of `merge_and_flush_log`: `batch`, of the size `batchSize`, is uploaded when it has reached the limit. -/
def batchesFrom (limit : Nat) (batch : List LogFile) (batchSize : Nat) : List LogFile → List (List LogFile)
  | [] => if batch = [] then [] else [batch]
  | f :: files =>
    if limit ≤ batchSize then batch :: batchesFrom limit [f] f.2.fileSize files
    else batchesFrom limit (batch ++ [f]) (batchSize + f.2.fileSize) files

def batches (h : StreamTaskHandler) : List (List LogFile) :=
  batchesFrom h.mergedFileSizeLimit [] 0 h.flushingFiles ++ batchesFrom h.mergedFileSizeLimit [] 0 h.flushingMetaFiles

end StreamTaskHandler

/-! ## The flush -/

structure FlushContext where
  resolvedRegions : List ResolveResult
  resolvedTs : Nat
  storeId : Nat

/-- How far a flush has come.  From `requested` on the task is marked as flushing, which keeps others from starting. -/
inductive Flush
  | idle
  | requested
  /-- the checkpoints are frozen, `do_flush` is to run -/
  | frozen (cx : FlushContext)
  /-- the batches in `rest` are to be uploaded, then the metadata -/
  | uploading (cx : FlushContext) (metadata : MetadataInfo) (rest : List (List LogFile))

/-- The log backup of a task on a store.  `returned` is what `flush_and_notify` is to be called with.  `accepted` and
`promised` record the accepted events, by region, and what the regions were resolved to. -/
structure LogBackup where
  handler : StreamTaskHandler
  storage : ExternalStorage
  manager : CheckpointManager
  flush : Flush
  returned : List (List ResolveResult)
  accepted : List (Nat × ApplyEvent)
  promised : List ResolveResult

inductive Action
  | onEvents (kv : ApplyEvents)
  | resolveRegions (results : List ResolveResult)
  | startFlush
  | execFlush (cx : FlushContext)
  | moveFiles (ok : Bool)
  | upload (path : Nat) (ok : Bool)
  | writeMeta (ok : Bool)
  | flushAndNotify

namespace LogBackup

def new (mergedFileSizeLimit : Nat) : LogBackup :=
  ⟨.new mergedFileSizeLimit, ⟨∅, []⟩, ⟨∅, ∅, ∅⟩, .idle, [], [], []⟩

def finish (s : LogBackup) (cx : FlushContext) (metadata : MetadataInfo) : LogBackup :=
  let rts := metadata.minResolvedTs.elim cx.resolvedTs (max · cx.resolvedTs)
  let metadata := { metadata with minResolvedTs := some rts }
  { s with
    storage := { s.storage with
      metas := if metadata.fileGroups = [] then s.storage.metas else metadata :: s.storage.metas }
    handler := s.handler.clearFlushingFiles
    flush := .idle
    -- "We cannot advance the resolved ts for now."
    returned := if rts = 0 then s.returned else s.returned ++ [cx.resolvedRegions] }

def run (s : LogBackup) : Action → Option LogBackup
  | .onEvents kv =>
    some { s with
      handler := s.handler.onEvents kv
      accepted := kv.events.map (kv.regionId, ·) ++ s.accepted }
  | .resolveRegions results =>
    some { s with manager := s.manager.resolveRegions results, promised := results ++ s.promised }
  | .startFlush =>
    match s.flush with
    | .idle => some { s with flush := .requested }
    | _ => none
  | .execFlush cx =>
    match s.flush with
    | .requested =>
      some { s with manager := s.manager.freeze, flush := .frozen cx, promised := cx.resolvedRegions ++ s.promised }
    | _ => none
  | .moveFiles ok =>
    match s.flush with
    | .frozen cx =>
      let handler := s.handler.moveToFlushingFiles
      some { s with handler, flush := if ok then .uploading cx (.new cx.storeId) handler.batches else .idle }
    | _ => none
  | .upload path ok =>
    match s.flush with
    | .uploading cx metadata (batch :: rest) =>
      if !ok then some { s with flush := .idle }
      else if (s.storage.objects.lookup path).isSome then none
      else
        some { s with
          storage := { s.storage with objects := s.storage.objects.insert path batch }
          flush := .uploading cx (metadata.push (mergedFileInfo path batch)) rest }
    | _ => none
  | .writeMeta ok =>
    match s.flush with
    | .uploading cx metadata [] =>
      if !ok then some { s with flush := .idle }
      -- "assert!(!file_group.data_files_info.is_empty())"
      else if metadata.fileGroups.any fun group => group.dataFilesInfo.isEmpty then none
      else some (s.finish cx metadata)
    | _ => none
  | .flushAndNotify =>
    match s.returned with
    | [] => none
    | results :: rest => some { s with manager := s.manager.flushAndNotify results, returned := rest }

def Step (s : LogBackup) (a : Action) (s' : LogBackup) : Prop := s.run a = some s'

/-- **Every event of a region at or below its published checkpoint is backed up.** -/
def Backed (s : LogBackup) : Prop :=
  ∀ id ts, Reads s.manager.checkpointTs id ts → ∀ a ∈ s.accepted, a.1 = id → a.2.ts ≤ ts → s.storage.Lists a

end LogBackup

/-- **Resolved timestamps are sound**: no event at or below what its region was resolved to comes later. -/
def Sound (s : LogBackup) : Action → Prop
  | .onEvents kv => ∀ e ∈ kv.events, ∀ ts, Resolves s.promised kv.regionId ts → ts < e.ts
  | _ => True

def DueAt (s : LogBackup) (cx : FlushContext) (id ts : Nat) : Prop :=
  Reads s.manager.resolvedTs id ts ∨ Resolves cx.resolvedRegions id ts

/-- **A flush takes what it will publish for**: the flush before it was notified, and it finds no flushing files of a
failed flush, or no event in the temporary files that is at or below what it is to publish. -/
def Clean (s : LogBackup) : Action → Prop
  | .execFlush cx =>
    s.returned = [] ∧ (s.handler.flushing = [] ∨
      ∀ key file, s.handler.files.lookup key = some file → ∀ e ∈ file.events, ∀ ts, DueAt s cx key.regionId ts → ts < e.ts)
  | _ => True

/-! ## Where an event is -/

def InLogFiles (files : List LogFile) (a : Nat × ApplyEvent) : Prop :=
  ∃ f ∈ files, f.1.regionId = a.1 ∧ a.2 ∈ f.2.events

def InTempFiles (files : Map TempFileKey DataFile) (a : Nat × ApplyEvent) : Prop :=
  ∃ key file, files.lookup key = some file ∧ key.regionId = a.1 ∧ a.2 ∈ file.events

variable {h : StreamTaskHandler} {regionResolvedTs : Nat} {kv : ApplyEvents} {a : Nat × ApplyEvent} {f : LogFile}

theorem inTempFiles_onEventsOfKey (files : Map TempFileKey DataFile) (part : TempFileKey × List ApplyEvent) :
    InTempFiles (onEventsOfKey regionResolvedTs files part) a ↔
      InTempFiles files a ∨ part.1.regionId = a.1 ∧ a.2 ∈ part.2 := by
  unfold onEventsOfKey
  constructor
  · rintro ⟨key, file, hl, hid, he⟩
    rcases Map.lookup_insert_cases hl with ⟨heq, rfl⟩ | hl
    · rw [DataFile.events_onEvents] at he
      rcases mem_append.1 he with he | he
      · cases hold : files.lookup part.1 with
        | none => rw [hold] at he; exact absurd he not_mem_nil
        | some file => rw [hold] at he; exact .inl ⟨part.1, file, hold, heq ▸ hid, he⟩
      · exact .inr ⟨heq ▸ hid, he⟩
    · exact .inl ⟨key, file, hl, hid, he⟩
  · rintro (⟨key, file, hl, hid, he⟩ | ⟨hid, he⟩)
    · by_cases heq : key = part.1
      · refine ⟨key, _, by rw [Map.lookup_insert, if_pos heq], hid, ?_⟩
        rw [DataFile.events_onEvents, ← heq, hl]
        exact mem_append_left _ he
      · exact ⟨key, file, by rw [Map.lookup_insert, if_neg heq]; exact hl, hid, he⟩
    · refine ⟨part.1, _, by rw [Map.lookup_insert, if_pos rfl], hid, ?_⟩
      rw [DataFile.events_onEvents]
      exact mem_append_right _ he

theorem inTempFiles_foldl : ∀ (parts : List (TempFileKey × List ApplyEvent)) (files : Map TempFileKey DataFile),
      InTempFiles (parts.foldl (onEventsOfKey regionResolvedTs) files) a ↔
        InTempFiles files a ∨ ∃ part ∈ parts, part.1.regionId = a.1 ∧ a.2 ∈ part.2
  | [], files => by simp
  | part :: parts, files => by
    rw [foldl_cons, inTempFiles_foldl parts, inTempFiles_onEventsOfKey, exists_mem_cons_iff,
      or_assoc]

theorem mem_partitionByTableKey : (∃ part ∈ partitionByTableKey kv, part.1.regionId = a.1 ∧ a.2 ∈ part.2) ↔
      kv.regionId = a.1 ∧ a.2 ∈ kv.events := by
  constructor
  · rintro ⟨part, hpart, hid, he⟩
    obtain ⟨key, -, rfl⟩ := mem_map.1 hpart
    obtain ⟨he, hkey⟩ := mem_filter.1 he
    rw [← beq_iff_eq.1 hkey] at hid
    exact ⟨hid, he⟩
  · rintro ⟨hid, he⟩
    refine ⟨_, mem_map.2 ⟨TempFileKey.of a.2 kv.regionId, ?_, rfl⟩, hid, ?_⟩
    · exact mem_eraseDups.2 (mem_map.2 ⟨a.2, he, rfl⟩)
    · exact mem_filter.2 ⟨he, beq_self_eq_true _⟩

theorem inTempFiles_onEvents :
    InTempFiles (h.onEvents kv).files a ↔ InTempFiles h.files a ∨ kv.regionId = a.1 ∧ a.2 ∈ kv.events := by
  rw [← mem_partitionByTableKey]
  exact inTempFiles_foldl _ _

theorem inLogFiles_moveToFlushingFiles (hnone : h.flushing = [])
    (ha : InTempFiles h.files a) : InLogFiles h.moveToFlushingFiles.flushing a := by
  obtain ⟨hfiles, hmeta⟩ := append_eq_nil_iff.1 hnone
  obtain ⟨key, file, hl, hid, he⟩ := ha
  have hmem : (key, file) ∈ h.files.entries.map fun x => (x.1, x.2) :=
    mem_map.2 ⟨⟨key, file⟩, Map.mem_entries.2 hl, rfl⟩
  unfold moveToFlushingFiles
  rw [if_neg (by rw [hfiles, hmeta]; exact fun h => h.elim (· rfl) (· rfl))]
  refine ⟨(key, file), ?_, hid, he⟩
  cases hm : key.isMeta with
  | true => exact mem_append_right _ (mem_filter.2 ⟨hmem, hm⟩)
  | false => exact mem_append_left _ (mem_filter.2 ⟨hmem, by dsimp only; rw [hm]; rfl⟩)

theorem moveToFlushingFiles_retry (hsome : h.flushing ≠ []) : h.moveToFlushingFiles = h := by
  refine if_pos ?_
  by_contra hnone
  obtain ⟨hfiles, hmeta⟩ := not_or.1 hnone
  exact hsome (append_eq_nil_iff.2 ⟨not_not.1 hfiles, not_not.1 hmeta⟩)

theorem mem_batchesFrom (limit : Nat) : ∀ (files batch : List LogFile) (batchSize : Nat),
    f ∈ batch ∨ f ∈ files → ∃ b ∈ batchesFrom limit batch batchSize files, f ∈ b
  | [], batch, _, hf => by
    have hf : f ∈ batch := hf.resolve_right not_mem_nil
    refine ⟨batch, ?_, hf⟩
    rw [batchesFrom, if_neg (ne_nil_of_mem hf)]
    exact mem_singleton_self _
  | g :: files, batch, batchSize, hf => by
    rw [batchesFrom]
    split
    · rcases hf with hf | hf
      · exact ⟨batch, mem_cons_self, hf⟩
      obtain ⟨b, hb, hfb⟩ := mem_batchesFrom limit files [g] g.2.fileSize
        ((mem_cons.1 hf).imp_left fun (h : f = g) => h ▸ mem_singleton_self _)
      exact ⟨b, mem_cons_of_mem _ hb, hfb⟩
    · refine mem_batchesFrom limit files _ _ ?_
      rcases hf with hf | hf
      · exact .inl (mem_append_left _ hf)
      · exact (mem_cons.1 hf).imp_left fun (h : f = g) => h ▸ mem_append_right _ (mem_singleton_self _)

theorem mem_batches (hf : f ∈ h.flushing) : ∃ b ∈ h.batches, f ∈ b := by
  rcases mem_append.1 hf with hf | hf
  · obtain ⟨b, hb, hfb⟩ := mem_batchesFrom h.mergedFileSizeLimit h.flushingFiles [] 0 (.inr hf)
    exact ⟨b, mem_append_left _ hb, hfb⟩
  obtain ⟨b, hb, hfb⟩ := mem_batchesFrom h.mergedFileSizeLimit h.flushingMetaFiles [] 0 (.inr hf)
  exact ⟨b, mem_append_right _ hb, hfb⟩

/-! ## Uploaded files -/

def Uploaded (objects : Map Nat (List LogFile)) (groups : List DataFileGroup) (f : LogFile) : Prop :=
  ∃ group ∈ groups, ∃ files ∈ (objects.lookup group.path).toList, f ∈ files ∧ generateMetadata f ∈ group.dataFilesInfo

variable {path : Nat} {objects : Map Nat (List LogFile)} {groups : List DataFileGroup} (batch : List LogFile)

theorem lookup_insert_fresh (hfresh : objects.lookup path = none) {p : Nat} {files : List LogFile}
    (h : files ∈ (objects.lookup p).toList) : files ∈ ((objects.insert path batch).lookup p).toList := by
  have hne : p ≠ path := by
    rintro rfl
    rw [hfresh] at h
    exact absurd h not_mem_nil
  rw [Map.lookup_insert, if_neg hne]
  exact h

theorem Uploaded.insert (h : Uploaded objects groups f) (hfresh : objects.lookup path = none) (group : DataFileGroup) :
    Uploaded (objects.insert path batch) (groups ++ [group]) f := by
  obtain ⟨g, hg, files, hfiles, hf⟩ := h
  exact ⟨g, mem_append_left _ hg, files, lookup_insert_fresh batch hfresh hfiles, hf⟩

theorem uploaded_batch (hf : f ∈ batch) :
    Uploaded (objects.insert path batch) (groups ++ [mergedFileInfo path batch]) f := by
  refine ⟨_, mem_append_right _ (mem_singleton_self _), batch, ?_, hf, mem_map.2 ⟨f, hf, rfl⟩⟩
  rw [show (mergedFileInfo path batch).path = path from rfl, Map.lookup_insert, if_pos rfl]
  exact mem_singleton_self _

theorem ExternalStorage.Lists.insert {s : ExternalStorage} (h : s.Lists a) (hfresh : s.objects.lookup path = none) :
    Lists { s with objects := s.objects.insert path batch } a := by
  obtain ⟨m, hm, group, hgroup, files, hfiles, hf⟩ := h
  exact ⟨m, hm, group, hgroup, files, lookup_insert_fresh batch hfresh hfiles, hf⟩

variable {s : LogBackup} {cx : FlushContext} {metadata : MetadataInfo} {batch : List LogFile}

theorem ExternalStorage.Lists.finish (h : s.storage.Lists a) : (s.finish cx metadata).storage.Lists a := by
  obtain ⟨m, hm, hrest⟩ := h
  refine ⟨m, ?_, hrest⟩
  unfold LogBackup.finish
  dsimp only
  split
  · exact hm
  · exact mem_cons_of_mem _ hm

theorem lists_finish (hup : ∀ f ∈ s.handler.flushing, Uploaded s.storage.objects metadata.fileGroups f)
    (ha : InLogFiles s.handler.flushing a) : (s.finish cx metadata).storage.Lists a := by
  obtain ⟨f, hf, hid, he⟩ := ha
  obtain ⟨group, hgroup, files, hfiles, hmem, hinfo⟩ := hup f hf
  refine ⟨{ metadata with minResolvedTs := some (metadata.minResolvedTs.elim cx.resolvedTs (max · cx.resolvedTs)) }, ?_,
    group, hgroup, files, hfiles, f, hmem, hid, he, hinfo⟩
  unfold LogBackup.finish
  dsimp only
  rw [if_neg (ne_nil_of_mem hgroup)]
  exact mem_cons_self

/-! ## The invariant -/

namespace LogBackup

def Covered (s : LogBackup) (id ts : Nat) : Prop := ∀ a ∈ s.accepted, a.1 = id → a.2.ts ≤ ts → s.storage.Lists a

def Due (s : LogBackup) (results : List ResolveResult) (id ts : Nat) : Prop :=
  Reads s.manager.frozenResolvedTs id ts ∨ Resolves results id ts

def FlushInv (s : LogBackup) : Flush → Prop
  | .idle => True
  | .requested => True
  | .frozen cx =>
    (∀ id ts, Resolves cx.resolvedRegions id ts → Resolves s.promised id ts) ∧ (s.handler.flushing = [] ∨
      ∀ a, InTempFiles s.handler.files a → ∀ ts, s.Due cx.resolvedRegions a.1 ts → ts < a.2.ts)
  | .uploading cx metadata rest =>
    (∀ id ts, Resolves cx.resolvedRegions id ts → Resolves s.promised id ts) ∧
    (∀ a ∈ s.accepted, ∀ ts, s.Due cx.resolvedRegions a.1 ts → a.2.ts ≤ ts →
      InLogFiles s.handler.flushing a ∨ s.storage.Lists a) ∧
    ∀ f ∈ s.handler.flushing, Uploaded s.storage.objects metadata.fileGroups f ∨ ∃ batch ∈ rest, f ∈ batch

structure Inv (s : LogBackup) : Prop where
  placed : ∀ a ∈ s.accepted, InTempFiles s.handler.files a ∨ InLogFiles s.handler.flushing a ∨ s.storage.Lists a
  published : ∀ id ts, Reads s.manager.checkpointTs id ts → Resolves s.promised id ts ∧ s.Covered id ts
  frozen : ∀ id ts, Reads s.manager.frozenResolvedTs id ts → Resolves s.promised id ts
  resolved : ∀ id ts, Reads s.manager.resolvedTs id ts → Resolves s.promised id ts
  flush : s.FlushInv s.flush
  returned : ∀ results ∈ s.returned, ∀ id ts, s.Due results id ts → Resolves s.promised id ts ∧ s.Covered id ts

theorem inv_new (mergedFileSizeLimit : Nat) : (new mergedFileSizeLimit).Inv where
  placed _ h := nomatch h
  published id ts h := (not_reads_empty id ts h).elim
  frozen id ts h := (not_reads_empty id ts h).elim
  resolved id ts h := (not_reads_empty id ts h).elim
  flush := trivial
  returned _ h := nomatch h

section

variable (hi : s.Inv)
include hi

theorem Inv.onEvents (hsound : ∀ e ∈ kv.events, ∀ ts, Resolves s.promised kv.regionId ts → ts < e.ts) : Inv { s with
      handler := s.handler.onEvents kv
      accepted := kv.events.map (kv.regionId, ·) ++ s.accepted } := by
  -- the new events are above every timestamp that their region was resolved to
  have hnew : ∀ a ∈ kv.events.map (kv.regionId, ·), ∀ ts, Resolves s.promised a.1 ts → ts < a.2.ts := by
    rintro a ha ts hts
    obtain ⟨e, he, rfl⟩ := mem_map.1 ha
    exact hsound e he ts hts
  have hcovered : ∀ id ts, Resolves s.promised id ts → s.Covered id ts →
      ∀ a ∈ kv.events.map (kv.regionId, ·) ++ s.accepted, a.1 = id → a.2.ts ≤ ts → s.storage.Lists a := by
    rintro id ts hprom hcov a ha rfl hle
    rcases mem_append.1 ha with ha | ha
    · have := hnew a ha ts hprom
      omega
    · exact hcov a ha rfl hle
  refine ⟨fun a ha => ?_, fun id ts h => ?_, hi.frozen, hi.resolved, ?_, fun results hr id ts h => ?_⟩
  · rcases mem_append.1 ha with ha | ha
    · obtain ⟨e, he, rfl⟩ := mem_map.1 ha
      exact .inl (inTempFiles_onEvents.2 (.inr ⟨rfl, he⟩))
    · exact (hi.placed a ha).imp_left fun h => inTempFiles_onEvents.2 (.inl h)
  · obtain ⟨hprom, hcov⟩ := hi.published id ts h
    exact ⟨hprom, hcovered id ts hprom hcov⟩
  · have hflush := hi.flush
    revert hflush
    cases s.flush with
    | idle | requested => exact id
    | frozen cx =>
      rintro ⟨hknown, hfiles⟩
      refine ⟨hknown, hfiles.imp_right fun hfiles a ha ts hdue => ?_⟩
      rcases inTempFiles_onEvents.1 ha with ha | ⟨hid, he⟩
      · exact hfiles a ha ts hdue
      refine hsound a.2 he ts (hid ▸ ?_)
      exact hdue.elim (hi.frozen a.1 ts) (hknown a.1 ts)
    | uploading cx metadata rest =>
      rintro ⟨hknown, hdue, hup⟩
      refine ⟨hknown, fun a ha ts hts hle => ?_, hup⟩
      rcases mem_append.1 ha with ha | ha
      · have := hnew a ha ts (hts.elim (hi.frozen a.1 ts) (hknown a.1 ts))
        omega
      · exact hdue a ha ts hts hle
  · obtain ⟨hprom, hcov⟩ := hi.returned results hr id ts h
    exact ⟨hprom, hcovered id ts hprom hcov⟩

theorem Inv.resolveRegions (results : List ResolveResult) :
    Inv { s with manager := s.manager.resolveRegions results, promised := results ++ s.promised } := by
  refine ⟨hi.placed, fun id ts h => (hi.published id ts h).imp_left .append_right,
    fun id ts h => (hi.frozen id ts h).append_right, fun id ts h => ?_, ?_,
    fun r hr id ts h => (hi.returned r hr id ts h).imp_left .append_right⟩
  · rcases reads_foldl_updateTs _ h with h | h
    · exact (hi.resolved id ts h).append_right
    · exact h.append_left
  · have hflush := hi.flush
    revert hflush
    cases s.flush with
    | idle | requested => exact id
    | frozen | uploading => exact fun ⟨hknown, hrest⟩ => ⟨fun id ts h => (hknown id ts h).append_right, hrest⟩

theorem Inv.execFlush (hclean : Clean s (.execFlush cx)) :
    Inv { s with manager := s.manager.freeze, flush := .frozen cx, promised := cx.resolvedRegions ++ s.promised } := by
  obtain ⟨hreturned, hfiles⟩ := hclean
  refine ⟨hi.placed, fun id ts h => (hi.published id ts h).imp_left .append_right,
    fun id ts h => (hi.resolved id ts h).append_right, fun id ts h => (not_reads_empty id ts h).elim,
    ⟨fun id ts h => h.append_left, ?_⟩, fun r hr => ?_⟩
  · refine hfiles.imp_right ?_
    rintro hfiles a ⟨key, file, hl, hid, he⟩ ts hdue
    exact hfiles key file hl a.2 he ts (hid ▸ hdue)
  · rw [hreturned] at hr
    exact absurd hr not_mem_nil

theorem Inv.stop : Inv { s with flush := .idle } :=
  { hi with flush := trivial }

theorem Inv.moveFiles (hstage : s.flush = .frozen cx) : Inv { s with
      handler := s.handler.moveToFlushingFiles
      flush := .uploading cx (.new cx.storeId) s.handler.moveToFlushingFiles.batches } := by
  obtain ⟨hknown, hfiles⟩ := hstage ▸ hi.flush
  by_cases hnone : s.handler.flushing = []
  · have hmoved : ∀ a ∈ s.accepted, InLogFiles s.handler.moveToFlushingFiles.flushing a ∨ s.storage.Lists a := by
      intro a ha
      rcases hi.placed a ha with h | h | h
      · exact .inl (inLogFiles_moveToFlushingFiles hnone h)
      · rw [hnone] at h
        obtain ⟨f, hf, -⟩ := h
        exact absurd hf not_mem_nil
      · exact .inr h
    exact { hi with
      placed := fun a ha => .inr (hmoved a ha)
      flush := ⟨hknown, fun a ha _ _ _ => hmoved a ha, fun f hf => .inr (mem_batches hf)⟩ }
  · rw [moveToFlushingFiles_retry hnone]
    refine { hi with flush := ⟨hknown, fun a ha ts hdue hle => ?_, fun f hf => .inr (mem_batches hf)⟩ }
    -- what is in the temporary files is not due
    rcases hi.placed a ha with h | h
    · have := (hfiles.resolve_left hnone) a h ts hdue
      omega
    · exact h

theorem Inv.upload {rest : List (List LogFile)} (hstage : s.flush = .uploading cx metadata (batch :: rest))
    (hfresh : s.storage.objects.lookup path = none) :
    Inv { s with
      storage := { s.storage with objects := s.storage.objects.insert path batch }
      flush := .uploading cx (metadata.push (mergedFileInfo path batch)) rest } := by
  obtain ⟨hknown, hdue, hup⟩ := hstage ▸ hi.flush
  have hlists : ∀ {a}, s.storage.Lists a →
      ExternalStorage.Lists { s.storage with objects := s.storage.objects.insert path batch } a :=
    fun h => h.insert batch hfresh
  refine ⟨fun a ha => (hi.placed a ha).imp_right (.imp_right hlists),
    fun id ts h => (hi.published id ts h).imp_right fun hcov a ha hid hle => hlists (hcov a ha hid hle), hi.frozen,
    hi.resolved, ⟨hknown, fun a ha ts hts hle => (hdue a ha ts hts hle).imp_right hlists, fun f hf => ?_⟩,
    fun r hr id ts h => (hi.returned r hr id ts h).imp_right fun hcov a ha hid hle => hlists (hcov a ha hid hle)⟩
  rcases hup f hf with hold | ⟨b, hb, hmem⟩
  · exact .inl (hold.insert batch hfresh _)
  rcases mem_cons.1 hb with rfl | hb
  · exact .inl (uploaded_batch _ hmem)
  · exact .inr ⟨b, hb, hmem⟩

theorem Inv.finish (hstage : s.flush = .uploading cx metadata []) : (s.finish cx metadata).Inv := by
  obtain ⟨hknown, hdue, hup⟩ := hstage ▸ hi.flush
  have hup : ∀ f ∈ s.handler.flushing, Uploaded s.storage.objects metadata.fileGroups f := by
    intro f hf
    refine (hup f hf).resolve_right ?_
    rintro ⟨b, hb, -⟩
    exact absurd hb not_mem_nil
  have hcovered : ∀ {id ts}, s.Covered id ts → (s.finish cx metadata).Covered id ts :=
    fun hcov a ha hid hle => (hcov a ha hid hle).finish
  refine ⟨fun a ha => ?_, fun id ts h => (hi.published id ts h).imp_right hcovered, hi.frozen, hi.resolved, trivial,
    fun results hr id ts h => ?_⟩
  · rcases hi.placed a ha with h | h | h
    · exact .inl h
    · exact .inr (.inr (lists_finish hup h))
    · exact .inr (.inr h.finish)
  · have hmem : results ∈ s.returned ∨ results = cx.resolvedRegions := by
      unfold LogBackup.finish at hr
      dsimp only at hr
      split at hr
      · exact .inl hr
      · exact (mem_append.1 hr).imp_right mem_singleton.1
    rcases hmem with hr | rfl
    · exact (hi.returned results hr id ts h).imp_right hcovered
    refine ⟨h.elim (hi.frozen id ts) (hknown id ts), fun a ha hid hle => ?_⟩
    subst hid
    rcases hdue a ha ts h hle with h | h
    · exact lists_finish hup h
    · exact h.finish

theorem Inv.flushAndNotify {results : List ResolveResult}
    {rest : List (List ResolveResult)} (hret : s.returned = results :: rest) :
    Inv { s with manager := s.manager.flushAndNotify results, returned := rest } := by
  have hdue : ∀ {r : List ResolveResult} {id ts}, Reads ∅ id ts ∨ Resolves r id ts → s.Due r id ts :=
    fun h => h.imp_left fun h => (not_reads_empty _ _ h).elim
  refine ⟨hi.placed, fun id ts h => ?_, fun id ts h => (not_reads_empty id ts h).elim, hi.resolved, ?_,
    fun r hr id ts h => ?_⟩
  · exact hi.returned results (hret ▸ mem_cons_self) id ts (reads_foldl_updateTs _ h)
  · have hflush := hi.flush
    revert hflush
    cases s.flush with
    | idle | requested => exact id
    | frozen cx =>
      exact fun ⟨hknown, hfiles⟩ => ⟨hknown, hfiles.imp_right fun hfiles a ha ts h => hfiles a ha ts (hdue h)⟩
    | uploading cx metadata rest =>
      exact fun ⟨hknown, hrest, hup⟩ => ⟨hknown, fun a ha ts h hle => hrest a ha ts (hdue h) hle, hup⟩
  · exact hi.returned r (hret ▸ mem_cons_of_mem _ hr) id ts (hdue h)

theorem step_inv {s' : LogBackup} {a : Action} (hsound : Sound s a) (hclean : Clean s a)
    (hs : s.Step a s') : s'.Inv := by
  unfold Step run at hs
  cases a with
  | onEvents kv =>
    cases hs
    exact hi.onEvents hsound
  | resolveRegions results =>
    cases hs
    exact hi.resolveRegions results
  | startFlush =>
    dsimp only at hs
    split at hs
    · cases hs
      exact { hi with flush := trivial }
    · cases hs
  | execFlush cx =>
    dsimp only at hs
    split at hs
    · cases hs
      exact hi.execFlush hclean
    · cases hs
  | moveFiles ok =>
    dsimp only at hs
    split at hs
    · rename_i cx hstage
      cases hs
      have hmoved := hi.moveFiles hstage
      cases ok with
      | true => exact hmoved
      | false => exact hmoved.stop
    · cases hs
  | upload path ok =>
    dsimp only at hs
    split at hs
    · rename_i cx metadata batch rest hstage
      split at hs
      · cases hs
        exact hi.stop
      split at hs
      · cases hs
      rename_i hfresh
      cases hs
      exact hi.upload hstage (Option.not_isSome_iff_eq_none.1 hfresh)
    · cases hs
  | writeMeta ok =>
    dsimp only at hs
    split at hs
    · rename_i cx metadata hstage
      split at hs
      · cases hs
        exact hi.stop
      split at hs
      · cases hs
      cases hs
      exact hi.finish hstage
    · cases hs
  | flushAndNotify =>
    dsimp only at hs
    split at hs
    · cases hs
    rename_i results rest hret
    cases hs
    exact hi.flushAndNotify hret

end

end LogBackup

/-- **A published checkpoint is backed by uploaded data** in the runs in which every flush takes what it publishes
for. -/
theorem backed_of_run {limit : Nat} {actions : List Action} {s : LogBackup}
    (hrun : Run LogBackup.Step (fun s a => Sound s a ∧ Clean s a) (.new limit) actions s) : s.Backed := by
  have hi : s.Inv :=
    hrun.invariant (fun _ _ _ hi hok hs => LogBackup.step_inv hi hok.1 hok.2 hs) (LogBackup.inv_new limit)
  exact fun id ts h a ha hid hle => (hi.published id ts h).2 a ha hid hle

def eventAt (ts : Nat) : ApplyEvents := ⟨[⟨[0x74], [], .write, .put, 1, ts⟩], 1, 0⟩

def resolvedTo (ts : Nat) : FlushContext := ⟨[⟨⟨1, 1⟩, ts⟩], ts, 1⟩

def flushOnce (ts : Nat) (ok : Bool) : List Action :=
  [.startFlush, .execFlush (resolvedTo ts), .moveFiles true, .upload 0 ok]

theorem backed_of_run_retry : ∃ s, Run LogBackup.Step (fun s a => Sound s a ∧ Clean s a) (.new 100)
      (.onEvents (eventAt 5) :: flushOnce 10 false ++ flushOnce 12 true ++ [.writeMeta true, .flushAndNotify]) s ∧
      Reads s.manager.checkpointTs 1 12 ∧ s.Backed := by
  have hclean : ∀ (s : LogBackup) (cx : FlushContext), s.returned = [] → s.handler.files = ∅ → Clean s (.execFlush cx) := by
    intro s cx hret hfiles
    refine ⟨hret, .inr fun key file hl => ?_⟩
    rw [hfiles] at hl
    cases hl
  refine Exists.imp (fun s (h : Run _ _ _ _ s ∧ Reads _ _ _) => ⟨h.1, h.2, backed_of_run h.1⟩)
    ⟨_, .cons ⟨fun _ _ _ h => ?_, trivial⟩ rfl (.cons ⟨trivial, trivial⟩ rfl
    (.cons ⟨trivial, rfl, .inl rfl⟩ rfl (.cons ⟨trivial, trivial⟩ rfl (.cons ⟨trivial, trivial⟩ rfl
    (.cons ⟨trivial, trivial⟩ rfl (.cons ⟨trivial, hclean _ _ rfl rfl⟩ rfl (.cons ⟨trivial, trivial⟩ rfl
    (.cons ⟨trivial, trivial⟩ rfl (.cons ⟨trivial, trivial⟩ rfl (.cons ⟨trivial, trivial⟩ rfl (.nil _))))))))))),
    ⟨_, rfl, rfl⟩⟩
  obtain ⟨rr, hmem, -⟩ := h
  exact absurd hmem not_mem_nil

theorem sound_eventAt (h : ∀ rr ∈ s.promised, rr.checkpoint = 10) : Sound s (.onEvents (eventAt 15)) := by
  rintro e he ts ⟨rr, hmem, -, rfl⟩
  rw [mem_singleton.1 he, h rr hmem]
  decide

/-- **Where a published checkpoint is not backed**: a flush that retries publishes what was resolved for it, and the
event at 15, which came after the files of the failed flush were taken, is in no uploaded file; or a flush freezes the
checkpoints before the one before it is notified. -/
theorem not_backed : (∃ s, Run LogBackup.Step Sound (.new 100) (.onEvents (eventAt 5) :: flushOnce 10 false ++
      .onEvents (eventAt 15) :: flushOnce 20 true ++ [.writeMeta true, .flushAndNotify]) s ∧ ¬ s.Backed) ∧
    ∃ s, Run LogBackup.Step Sound (.new 100) (.onEvents (eventAt 5) :: flushOnce 10 true ++
      [.writeMeta true, .onEvents (eventAt 15), .resolveRegions (resolvedTo 20).resolvedRegions, .startFlush,
        .execFlush ⟨[], 20, 1⟩, .flushAndNotify]) s ∧ ¬ s.Backed := by
  have hfirst : ∀ s : LogBackup, s.promised = [] → Sound s (.onEvents (eventAt 5)) := by
    rintro s hp e - ts ⟨rr, hmem, -⟩
    rw [hp] at hmem
    exact absurd hmem not_mem_nil
  have hten : ∀ rr ∈ (resolvedTo 10).resolvedRegions, rr.checkpoint = 10 := by decide
  refine ⟨⟨_, .cons (hfirst _ rfl) rfl (.cons trivial rfl (.cons trivial rfl (.cons trivial rfl (.cons trivial rfl
    (.cons (sound_eventAt hten) rfl (.cons trivial rfl (.cons trivial rfl (.cons trivial rfl (.cons trivial rfl
    (.cons trivial rfl (.cons trivial rfl (.nil _)))))))))))), fun h => ?_⟩,
    ⟨_, .cons (hfirst _ rfl) rfl (.cons trivial rfl (.cons trivial rfl (.cons trivial rfl (.cons trivial rfl
    (.cons trivial rfl (.cons (sound_eventAt hten) rfl (.cons trivial rfl (.cons trivial rfl (.cons trivial rfl
    (.cons trivial rfl (.nil _))))))))))), fun h => ?_⟩⟩
  all_goals
    have hlists := h 1 20 ⟨_, rfl, rfl⟩ (1, ⟨[0x74], [], .write, .put, 1, 15⟩) mem_cons_self rfl (by decide)
    exact absurd hlists (by decide)

end Backup
end Tikv
