import Tikv.CompactCollector
import Tikv.LibRun
/-!
# CompactMigration — runs of the log compaction and the migrations they write (`CompactionRunInfoBuilder`)

A run loads the metadata files as the earlier migrations leave them, collects subcompactions, executes them but for
those that are skipped, and writes a migration that retires what the finished ones have compacted: spans of log files,
whole physical files if the spans cover them, and marks on metadata files of which nothing, or no data, is left.

`Archive` keeps what was compacted.  In every run each data file in the range that was not retired is an input of one
subcompaction, the migration retires inputs of finished subcompactions only, and what a later run does not see was
compacted (`CompactRetire`).  Log files are told apart by their offsets, so this takes that none is empty.

`none` is a failed assertion of the source.
-/
namespace Tikv
namespace Compact

open Lib List

/-! ## What a run has compacted -/

/-- Insertion into a `BTreeSet<SortByOffset>`, which takes ids with the same offset for the same. -/
def insertByOffset (id : LogFileId) : List LogFileId → List LogFileId
  | [] => [id]
  | x :: l =>
    if id.offset < x.offset then id :: x :: l
    else if id.offset = x.offset then x :: l
    else x :: insertByOffset id l

structure CompactionRunInfoBuilder where
  files : Map FileName (List LogFileId)
  compaction : LogFileCompaction

def coversFrom (size : Nat) : Nat → List LogFileId → Option Bool
  | curOffset, [] => if curOffset ≤ size then some (curOffset == size) else none
  | curOffset, span :: spans =>
    if span.offset ≠ curOffset then some false else coversFrom size (curOffset + span.length) spans

structure ExpiringFilesOfMeta where
  metaPath : FileName
  logs : List FileName
  destructSelf : Bool
  allDataFilesCompacted : Bool
  spansOfFile : Map FileName (List Span × Nat)

namespace ExpiringFilesOfMeta

def isEmpty (r : ExpiringFilesOfMeta) : Bool :=
  r.logs.isEmpty && r.spansOfFile.entries.isEmpty && !r.destructSelf && !r.allDataFilesCompacted

def toEdit (r : ExpiringFilesOfMeta) : MetaEdit :=
  ⟨r.metaPath, r.logs, r.spansOfFile.entries.map fun x => ⟨x.1, x.2.1, x.2.2⟩, r.destructSelf, r.allDataFilesCompacted⟩

end ExpiringFilesOfMeta

namespace CompactionRunInfoBuilder

def new (fromTs untilTs : Nat) : CompactionRunInfoBuilder := ⟨∅, ⟨2 ^ 64 - 1, 0, fromTs, untilTs⟩⟩

def isEmpty (b : CompactionRunInfoBuilder) : Bool := b.files.entries.isEmpty

def addInput (files : Map FileName (List LogFileId)) (i : Input) : Map FileName (List LogFileId) :=
  files.insert i.id.name (insertByOffset i.id ((files.lookup i.id.name).getD []))

def addOriginSubcompaction (b : CompactionRunInfoBuilder) (c : Subcompaction) : CompactionRunInfoBuilder :=
  { files := c.inputs.foldl addInput b.files
    compaction := { b.compaction with
      inputMinTs := min b.compaction.inputMinTs c.inputMinTs
      inputMaxTs := max b.compaction.inputMaxTs c.inputMaxTs } }

def fullCovers (b : CompactionRunInfoBuilder) (file : PhysicalLogFile) : Option Bool :=
  match b.files.lookup file.name with
  | none => some false
  | some spans => coversFrom file.size 0 spans

def expiringFile (b : CompactionRunInfoBuilder) (r : ExpiringFilesOfMeta) (p : PhysicalLogFile) :
    Option ExpiringFilesOfMeta :=
  (b.fullCovers p).map fun fullCovers =>
    if fullCovers then { r with logs := r.logs ++ [p.name] }
    else
      { r with
        spansOfFile :=
          match b.files.lookup p.name with
          | none => r.spansOfFile
          | some vs =>
            let segs := (r.spansOfFile.lookup p.name).getD ([], p.size)
            r.spansOfFile.insert p.name (segs.1 ++ vs.map (·.span), segs.2)
        destructSelf := false
        allDataFilesCompacted := if p.files.any fun f => !f.isMeta then false else r.allDataFilesCompacted }

def expiring (b : CompactionRunInfoBuilder) (file : MetaFile) : Option ExpiringFilesOfMeta :=
  file.physicalFiles.foldlM b.expiringFile ⟨file.name, [], true, true, ∅⟩

def migrationOf (b : CompactionRunInfoBuilder) (metas : List ExpiringFilesOfMeta) : Migration :=
  ⟨metas.map (·.toEdit), [b.compaction]⟩

end CompactionRunInfoBuilder

/-! ## Runs -/

inductive SkipReason
  | noNeedToDo
  | alreadyDone
deriving DecidableEq, Repr

structure Execution where
  fromTs : Nat
  untilTs : Nat
  subcompactionSizeThreshold : Nat
  skip : Subcompaction → Option SkipReason

def Execution.cfg (e : Execution) : CollectSubcompactionConfig :=
  ⟨e.fromTs, e.untilTs, e.subcompactionSizeThreshold⟩

/-- The metadata files and migrations of a backup; `compacted` records the inputs of the finished subcompactions. -/
structure Archive where
  metas : List MetaFile
  migs : List Migration
  compacted : List LogFileId

namespace Archive

def subcompactions (s : Archive) (e : Execution) : List Subcompaction :=
  collect e.cfg ((load (.fromMigrations s.migs) s.metas).flatMap (·.logs))

def finished (s : Archive) (e : Execution) : List Subcompaction :=
  (s.subcompactions e).filter fun c => e.skip c != some .noNeedToDo

def runInfo (s : Archive) (e : Execution) : CompactionRunInfoBuilder :=
  (s.finished e).foldl .addOriginSubcompaction (.new e.fromTs e.untilTs)

def writeMigration (s : Archive) (e : Execution) (metas : List MetaFile) : Option (List Migration) :=
  if (s.runInfo e).isEmpty then some []
  else
    ((load (.fromMigrations s.migs) metas).mapM (s.runInfo e).expiring).map fun expiring =>
      [(s.runInfo e).migrationOf (expiring.filter fun r => !r.isEmpty)]

def runPrepared (s : Archive) (e : Execution) (added : List MetaFile) : Option Archive :=
  (s.writeMigration e (s.metas ++ added)).map fun new =>
    { metas := s.metas ++ added
      migs := s.migs ++ new
      compacted := (s.finished e).flatMap (fun c => c.inputs.map (·.id)) ++ s.compacted }

end Archive

inductive Event
  | flush (file : MetaFile)
  | compact (e : Execution) (added : List MetaFile)

def Archive.run (s : Archive) : Event → Option Archive
  | .flush file => some { s with metas := s.metas ++ [file] }
  | .compact e added => s.runPrepared e added

def Archive.Step (s : Archive) (ev : Event) (s' : Archive) : Prop := s.run ev = some s'

def Event.added : Event → List MetaFile
  | .flush file => [file]
  | .compact _ added => added

/-! ## Physical files are concatenations -/

def Concatenates (name : FileName) (size : Nat) : Nat → List LogFile → Prop
  | offset, [] => offset = size
  | offset, f :: files =>
    f.id.name = name ∧ f.id.offset = offset ∧ Concatenates name size (offset + f.id.length) files

/-- **Each physical file is the concatenation of its log files**, and is listed once. -/
structure Concatenated (metas : List MetaFile) : Prop where
  files : ∀ m ∈ metas, ∀ p ∈ m.physicalFiles, Concatenates p.name p.size 0 p.files
  names : (metas.map (·.name)).Nodup
  physical : ((metas.flatMap (·.physicalFiles)).map (·.name)).Nodup

def NonEmpty (metas : List MetaFile) : Prop := ∀ m ∈ metas, ∀ f ∈ m.logs, 0 < f.id.length

variable {name : FileName} {size : Nat}

theorem Concatenates.bounds : ∀ {files : List LogFile} {offset : Nat},
    Concatenates name size offset files → offset ≤ size ∧
      ∀ f ∈ files, f.id.name = name ∧ offset ≤ f.id.offset ∧ f.id.offset + f.id.length ≤ size
  | [], _, h => ⟨h.le, nofun⟩
  | g :: files, offset, ⟨hname, hoff, h⟩ => by
    obtain ⟨hle, hrest⟩ := h.bounds
    refine ⟨by omega, fun f hf => ?_⟩
    rcases mem_cons.1 hf with rfl | hf
    · exact ⟨hname, hoff.ge, by omega⟩
    obtain ⟨hn, ho, hl⟩ := hrest f hf
    exact ⟨hn, by omega, hl⟩

theorem Concatenates.nodup_offset : ∀ {files : List LogFile} {offset : Nat},
    Concatenates name size offset files → (∀ f ∈ files, 0 < f.id.length) → (files.map (·.id.offset)).Nodup
  | [], _, _, _ => nodup_nil
  | x :: files, offset, ⟨_, hoff, h⟩, hpos => by
    refine nodup_cons.2 ⟨fun hmem => ?_, h.nodup_offset fun y hy => hpos y (mem_cons_of_mem _ hy)⟩
    obtain ⟨g, hg, (heq : g.id.offset = x.id.offset)⟩ := mem_map.1 hmem
    have hbound := h.bounds.2 g hg
    have hx := hpos x mem_cons_self
    omega

theorem mem_of_coversFrom : ∀ {files : List LogFile} {offset : Nat}
    {spans : List LogFileId}, Concatenates name size offset files → (∀ f ∈ files, 0 < f.id.length) →
    spans.Pairwise (fun x y => x.offset < y.offset) → (∀ x ∈ spans, ∃ f ∈ files, f.id = x) →
    coversFrom size offset spans = some true → ∀ f ∈ files, f.id ∈ spans
  | [], _, _, _, _, _, _, _, _, hf => nomatch hf
  | g :: files, offset, [], ⟨_, hoff, h⟩, hpos, _, _, hcov, f, hf => by
    have hg := hpos g mem_cons_self
    have hle := h.bounds.1
    have heq : offset = size := by
      rw [coversFrom, if_pos (by omega)] at hcov
      exact beq_iff_eq.1 (Option.some.inj hcov)
    omega
  | g :: files, offset, x :: spans, ⟨_, hoff, h⟩, hpos, hsorted, hin, hcov, f, hf => by
    have hg := hpos g mem_cons_self
    obtain ⟨hx, hspans⟩ := pairwise_cons.1 hsorted
    rw [coversFrom] at hcov
    split at hcov
    · cases hcov
    -- the first span is the first log file
    have hfirst : g.id = x := by
      obtain ⟨f', hf', rfl⟩ := hin x mem_cons_self
      rcases mem_cons.1 hf' with rfl | hf'
      · rfl
      have := h.bounds.2 f' hf'
      omega
    rcases mem_cons.1 hf with rfl | hf
    · exact hfirst ▸ mem_cons_self
    refine mem_cons_of_mem _ (mem_of_coversFrom h (fun y hy => hpos y (mem_cons_of_mem _ hy)) hspans
      (fun y hy => ?_) (hfirst ▸ hcov) f hf)
    obtain ⟨f', hf', rfl⟩ := hin y (mem_cons_of_mem _ hy)
    rcases mem_cons.1 hf' with rfl | hf'
    · have := hx f'.id hy
      omega
    · exact ⟨f', hf', rfl⟩

theorem coversFrom_ne_none : ∀ {spans : List LogFileId} {offset : Nat}, offset ≤ size →
    (∀ x ∈ spans, x.offset + x.length ≤ size) → coversFrom size offset spans ≠ none
  | [], offset, hle, _ => by
    rw [coversFrom, if_pos hle]
    exact Option.some_ne_none _
  | x :: spans, offset, hle, hin => by
    rw [coversFrom]
    split
    · exact Option.some_ne_none _
    rename_i hoff
    have hx := hin x mem_cons_self
    refine coversFrom_ne_none ?_ fun y hy => hin y (mem_cons_of_mem _ hy)
    rw [← not_not.1 hoff]
    exact hx

/-! ## The builder holds inputs of its subcompactions -/

theorem mem_insertByOffset {id x : LogFileId} : ∀ {l : List LogFileId}, x ∈ insertByOffset id l → x = id ∨ x ∈ l
  | [], h => .inl (mem_singleton.1 h)
  | y :: l, h => by
    rw [insertByOffset] at h
    split at h
    · exact mem_cons.1 h
    split at h
    · exact .inr h
    rcases mem_cons.1 h with rfl | h
    · exact .inr mem_cons_self
    · exact (mem_insertByOffset h).imp_right (mem_cons_of_mem _)

theorem insertByOffset_sorted {id : LogFileId} : ∀ {l : List LogFileId},
    l.Pairwise (fun x y => x.offset < y.offset) → (insertByOffset id l).Pairwise (fun x y => x.offset < y.offset)
  | [], _ => pairwise_singleton _ _
  | y :: l, h => by
    obtain ⟨hy, hl⟩ := pairwise_cons.1 h
    rw [insertByOffset]
    split
    · rename_i hlt
      exact pairwise_cons.2 ⟨forall_mem_cons.2 ⟨hlt, fun z hz => hlt.trans (hy z hz)⟩, h⟩
    split
    · exact h
    refine pairwise_cons.2 ⟨fun z hz => ?_, insertByOffset_sorted hl⟩
    rcases mem_insertByOffset hz with rfl | hz
    · omega
    · exact hy z hz

def InputOf (cs : List Subcompaction) (id : LogFileId) : Prop := ∃ c ∈ cs, ∃ i ∈ c.inputs, i.id = id

def FilesOk (input : LogFileId → Prop) (files : Map FileName (List LogFileId)) : Prop :=
  ∀ name l, files.lookup name = some l →
    l.Pairwise (fun x y => x.offset < y.offset) ∧ ∀ id ∈ l, id.name = name ∧ input id

variable {input : LogFileId → Prop}

theorem FilesOk.addInput {files : Map FileName (List LogFileId)} (h : FilesOk input files)
    {i : Input} (hi : input i.id) : FilesOk input (CompactionRunInfoBuilder.addInput files i) := by
  have hold : ((files.lookup i.id.name).getD []).Pairwise (fun x y => x.offset < y.offset) ∧
      ∀ id ∈ (files.lookup i.id.name).getD [], id.name = i.id.name ∧ input id := by
    cases hl : files.lookup i.id.name with
    | none => exact ⟨List.Pairwise.nil, nofun⟩
    | some l => exact h _ l hl
  intro name l hl
  rcases Map.lookup_insert_cases hl with ⟨heq, rfl⟩ | hl
  · refine ⟨insertByOffset_sorted hold.1, fun id hid => ?_⟩
    rcases mem_insertByOffset hid with rfl | hid
    · exact ⟨heq.symm, hi⟩
    · exact ⟨(hold.2 id hid).1.trans heq.symm, (hold.2 id hid).2⟩
  · exact h name l hl

theorem FilesOk.foldl_addInput : ∀ {inputs : List Input}
    {files : Map FileName (List LogFileId)}, FilesOk input files → (∀ i ∈ inputs, input i.id) →
      FilesOk input (inputs.foldl CompactionRunInfoBuilder.addInput files)
  | [], _, h, _ => h
  | i :: _, _, h, hin => (h.addInput (hin i mem_cons_self)).foldl_addInput
      fun j hj => hin j (mem_cons_of_mem _ hj)

theorem FilesOk.foldl_add : ∀ {cs : List Subcompaction} {b : CompactionRunInfoBuilder},
    FilesOk input b.files → (∀ id, InputOf cs id → input id) →
      FilesOk input (cs.foldl CompactionRunInfoBuilder.addOriginSubcompaction b).files
  | [], _, h, _ => h
  | c :: cs, b, h, hin => by
    have hc : FilesOk input (b.addOriginSubcompaction c).files :=
      h.foldl_addInput fun i hi => hin i.id ⟨c, mem_cons_self, i, hi, rfl⟩
    rw [foldl_cons]
    refine FilesOk.foldl_add hc fun id hid => hin id ?_
    obtain ⟨c', hc', hi⟩ := hid
    exact ⟨c', mem_cons_of_mem _ hc', hi⟩

theorem filesOk_runInfo (s : Archive) (e : Execution) : FilesOk (InputOf (s.finished e)) (s.runInfo e).files :=
  FilesOk.foldl_add (fun _ _ h => nomatch h) fun _ h => h

end Compact
end Tikv
