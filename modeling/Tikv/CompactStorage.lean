import Tikv.LibBytes
import Tikv.LibMap
/-!
# CompactStorage — the log files of a backup and what migrations leave of them (`compact-log-backup::storage`)

A metadata file lists physical files, each the concatenation of its logical log files.  A migration edits metadata
files: it deletes logical files by the offset of their span, physical files by their name, or marks the whole metadata
file.  `MetaEditFilters` is what the migrations together make of the metadata files that a run loads; what it takes away
is named by an edit (`named_of_not_retained`, `marked_of_shouldFullySkip`).
-/
namespace Tikv
namespace Compact

open Lib List

/-! ## Log files -/

abbrev FileName := Bytes

structure LogFileId where
  name : FileName
  offset : Nat
  length : Nat
deriving DecidableEq, Repr

inductive FileType
  | put
  | delete
deriving DecidableEq, Repr

structure RegionEpoch where
  confVer : Nat
  version : Nat
deriving DecidableEq, Repr

structure LogFile where
  id : LogFileId
  fileRealSize : Nat
  numberOfEntries : Nat
  crc64xor : Nat
  regionId : Nat
  cf : Bytes
  minTs : Nat
  maxTs : Nat
  regionStartKey : Option Bytes
  regionEndKey : Option Bytes
  regionEpoches : Option (List RegionEpoch)
  isMeta : Bool
  ty : FileType
  tableId : Int
deriving DecidableEq, Repr

structure PhysicalLogFile where
  size : Nat
  name : FileName
  files : List LogFile
deriving DecidableEq, Repr

structure MetaFile where
  name : FileName
  physicalFiles : List PhysicalLogFile
deriving DecidableEq, Repr

def MetaFile.logs (m : MetaFile) : List LogFile := m.physicalFiles.flatMap (·.files)

/-! ## Migrations -/

structure Span where
  offset : Nat
  length : Nat
deriving DecidableEq, Repr

def LogFileId.span (id : LogFileId) : Span := ⟨id.offset, id.length⟩

structure DeleteSpansOfFile where
  path : FileName
  spans : List Span
  wholeFileLength : Nat
deriving DecidableEq, Repr

structure MetaEdit where
  path : FileName
  deletePhysicalFiles : List FileName
  deleteLogicalFiles : List DeleteSpansOfFile
  destructSelf : Bool
  allDataFilesCompacted : Bool
deriving DecidableEq, Repr

structure LogFileCompaction where
  inputMinTs : Nat
  inputMaxTs : Nat
  compactionFromTs : Nat
  compactionUntilTs : Nat
deriving DecidableEq, Repr

structure Migration where
  editMeta : List MetaEdit
  compactions : List LogFileCompaction
deriving DecidableEq, Repr

/-- The edit names the log file, which for a span is by its offset alone. -/
def MetaEdit.Names (em : MetaEdit) (id : LogFileId) : Prop :=
  id.name ∈ em.deletePhysicalFiles ∨
    ∃ d ∈ em.deleteLogicalFiles, d.path = id.name ∧ ∃ span ∈ d.spans, span.offset = id.offset

/-! ## The filter of a metadata file -/

structure MetaEditFilter where
  fullFiles : List FileName
  segments : Map FileName (List Nat)
  destructedSelf : Bool
  allDataFilesCompacted : Bool

namespace MetaEditFilter

def extendSegments (segments : Map FileName (List Nat)) (deletions : List DeleteSpansOfFile) :
    Map FileName (List Nat) :=
  deletions.foldl (fun m d => m.insert d.path ((m.lookup d.path).getD [] ++ d.spans.map (·.offset))) segments

def fromMetaEdit (em : MetaEdit) : MetaEditFilter :=
  ⟨em.deletePhysicalFiles, extendSegments ∅ em.deleteLogicalFiles, em.destructSelf, em.allDataFilesCompacted⟩

def mergeFromMetaEdit (f : MetaEditFilter) (em : MetaEdit) : MetaEditFilter :=
  let destructedSelf := f.destructedSelf || em.destructSelf
  let allDataFilesCompacted := f.allDataFilesCompacted || em.allDataFilesCompacted
  if destructedSelf || allDataFilesCompacted then ⟨[], ∅, destructedSelf, allDataFilesCompacted⟩
  else
    let fullFiles := f.fullFiles ++ em.deletePhysicalFiles
    let segments := extendSegments f.segments em.deleteLogicalFiles
    ⟨fullFiles, fullFiles.foldl (fun m path => m.erase path) segments, destructedSelf, allDataFilesCompacted⟩

def shouldRetain (f : MetaEditFilter) (file : LogFileId) : Bool :=
  if file.name ∈ f.fullFiles then false
  else !((f.segments.lookup file.name).getD []).contains file.offset

end MetaEditFilter

abbrev MetaEditFilters := Map FileName MetaEditFilter

namespace MetaEditFilters

def addEdit (m : MetaEditFilters) (em : MetaEdit) : MetaEditFilters :=
  match m.lookup em.path with
  | some f => m.insert em.path (f.mergeFromMetaEdit em)
  | none => m.insert em.path (.fromMetaEdit em)

def fromMigrations (migs : List Migration) : MetaEditFilters := (migs.flatMap (·.editMeta)).foldl addEdit ∅

def shouldFullySkip (m : MetaEditFilters) (path : FileName) : Bool :=
  match m.lookup path with
  | some f => f.allDataFilesCompacted || f.destructedSelf
  | none => false

def applyTo (m : MetaEditFilters) (file : MetaFile) : MetaFile :=
  match m.lookup file.name with
  | none => file
  | some edit =>
    { file with
      physicalFiles := (file.physicalFiles.map fun p =>
        { p with files := p.files.filter fun f => edit.shouldRetain f.id }).filter fun p => !p.files.isEmpty }

end MetaEditFilters

def load (filters : MetaEditFilters) (metas : List MetaFile) : List MetaFile :=
  (metas.filter fun m => !filters.shouldFullySkip m.name).map filters.applyTo

/-! ## What a filter takes away is named by an edit -/

/-- Whatever the filter takes away is named by one of the edits, and its marks are an edit's. -/
structure FilterSound (edit : MetaEdit → Prop) (f : MetaEditFilter) : Prop where
  full : ∀ name ∈ f.fullFiles, ∃ em, edit em ∧ name ∈ em.deletePhysicalFiles
  segments : ∀ name offsets, f.segments.lookup name = some offsets → ∀ offset ∈ offsets, ∃ em, edit em ∧
    ∃ d ∈ em.deleteLogicalFiles, d.path = name ∧ ∃ span ∈ d.spans, span.offset = offset
  destructed : f.destructedSelf = true → ∃ em, edit em ∧ em.destructSelf = true
  compacted : f.allDataFilesCompacted = true → ∃ em, edit em ∧ em.allDataFilesCompacted = true

theorem lookup_extendSegments {deletions : List DeleteSpansOfFile} : ∀ {segments : Map FileName (List Nat)}
    {name : FileName} {offsets : List Nat},
    (MetaEditFilter.extendSegments segments deletions).lookup name = some offsets → ∀ offset ∈ offsets,
      (∃ old, segments.lookup name = some old ∧ offset ∈ old) ∨
        ∃ d ∈ deletions, d.path = name ∧ ∃ span ∈ d.spans, span.offset = offset := by
  induction deletions with
  | nil => exact fun h offset ho => .inl ⟨_, h, ho⟩
  | cons d deletions ih =>
    intro segments name offsets h offset ho
    rcases ih h offset ho with ⟨old, hold, ho⟩ | ⟨d', hd', h'⟩
    · rcases Map.lookup_insert_cases hold with ⟨heq, rfl⟩ | hold
      · rcases mem_append.1 ho with ho | ho
        · cases hl : segments.lookup d.path with
          | none => rw [hl] at ho; exact absurd ho not_mem_nil
          | some old => rw [hl] at ho; exact .inl ⟨old, heq ▸ hl, ho⟩
        · obtain ⟨span, hspan, rfl⟩ := mem_map.1 ho
          exact .inr ⟨d, mem_cons_self, heq.symm, span, hspan, rfl⟩
      · exact .inl ⟨old, hold, ho⟩
    · exact .inr ⟨d', mem_cons_of_mem _ hd', h'⟩

theorem lookup_foldl_erase : ∀ (paths : List FileName) {m : Map FileName (List Nat)} {name : FileName}
    {offsets : List Nat}, (paths.foldl (fun m path => AList.erase path m) m).lookup name = some offsets →
      m.lookup name = some offsets
  | [], _, _, _, h => h
  | _ :: paths, _, _, _, h => Map.lookup_of_erase (lookup_foldl_erase paths h)

variable {edit : MetaEdit → Prop} {f : MetaEditFilter}

theorem FilterSound.mono {edit' : MetaEdit → Prop} (h : FilterSound edit f)
    (hsub : ∀ em, edit em → edit' em) : FilterSound edit' f where
  full name hn := (h.full name hn).imp fun em hem => hem.imp_left (hsub em)
  segments name offsets hl o ho := (h.segments name offsets hl o ho).imp fun em hem => hem.imp_left (hsub em)
  destructed hd := (h.destructed hd).imp fun em hem => hem.imp_left (hsub em)
  compacted hc := (h.compacted hc).imp fun em hem => hem.imp_left (hsub em)

theorem filterSound_fromMetaEdit {em : MetaEdit} (hem : edit em) : FilterSound edit (.fromMetaEdit em) where
  full name hn := ⟨em, hem, hn⟩
  segments name offsets hl offset ho := by
    rcases lookup_extendSegments hl offset ho with ⟨old, hold, -⟩ | hd
    · cases hold
    · exact ⟨em, hem, hd⟩
  destructed h := ⟨em, hem, h⟩
  compacted h := ⟨em, hem, h⟩

theorem FilterSound.merge (h : FilterSound edit f) {em : MetaEdit}
    (hem : edit em) : FilterSound edit (f.mergeFromMetaEdit em) := by
  have hdestructed : (f.destructedSelf || em.destructSelf) = true → ∃ em, edit em ∧ em.destructSelf = true := by
    intro hd
    rcases Bool.or_eq_true_iff.1 hd with hd | hd
    · exact h.destructed hd
    · exact ⟨em, hem, hd⟩
  have hcompacted : (f.allDataFilesCompacted || em.allDataFilesCompacted) = true →
      ∃ em, edit em ∧ em.allDataFilesCompacted = true := by
    intro hc
    rcases Bool.or_eq_true_iff.1 hc with hc | hc
    · exact h.compacted hc
    · exact ⟨em, hem, hc⟩
  unfold MetaEditFilter.mergeFromMetaEdit
  dsimp only
  split
  · exact ⟨fun _ hn => absurd hn not_mem_nil, fun _ _ hl => (nomatch hl), hdestructed, hcompacted⟩
  refine ⟨forall_mem_append.2 ⟨h.full, fun name hn => ⟨em, hem, hn⟩⟩, fun name offsets hl offset ho => ?_,
    hdestructed, hcompacted⟩
  · rcases lookup_extendSegments (lookup_foldl_erase _ hl) offset ho with ⟨old, hold, ho⟩ | hd
    · exact h.segments name old hold offset ho
    · exact ⟨em, hem, hd⟩

theorem filterSound_foldl : ∀ {edits : List MetaEdit} {m : MetaEditFilters} {edit : MetaEdit → Prop},
    (∀ name f, m.lookup name = some f → FilterSound (fun em => edit em ∧ em.path = name) f) →
    ∀ name f, (edits.foldl MetaEditFilters.addEdit m).lookup name = some f →
      FilterSound (fun em => (edit em ∨ em ∈ edits) ∧ em.path = name) f
  | [], m, edit, hm, name, f, hl => (hm name f hl).mono fun em hem => hem.imp_left .inl
  | em :: edits, m, edit, hm, name, f, hl => by
    have hstep : ∀ name f, (MetaEditFilters.addEdit m em).lookup name = some f →
        FilterSound (fun e => (edit e ∨ e = em) ∧ e.path = name) f := by
      intro name f hl
      unfold MetaEditFilters.addEdit at hl
      cases hold : m.lookup em.path with
      | none =>
        rw [hold] at hl
        rcases Map.lookup_insert_cases hl with ⟨heq, rfl⟩ | hl
        · exact filterSound_fromMetaEdit ⟨.inr rfl, heq.symm⟩
        · exact (hm name f hl).mono fun e he => he.imp_left .inl
      | some g =>
        rw [hold] at hl
        rcases Map.lookup_insert_cases hl with ⟨heq, rfl⟩ | hl
        · refine FilterSound.merge ?_ ⟨.inr rfl, heq.symm⟩
          exact (hm em.path g hold).mono fun e he => ⟨.inl he.1, he.2.trans heq.symm⟩
        · exact (hm name f hl).mono fun e he => he.imp_left .inl
    refine (filterSound_foldl hstep name f hl).mono fun e he => he.imp_left ?_
    rintro ((he | rfl) | he)
    · exact .inl he
    · exact .inr mem_cons_self
    · exact .inr (mem_cons_of_mem _ he)

def EditedBy (migs : List Migration) (path : FileName) (em : MetaEdit) : Prop :=
  (∃ mig ∈ migs, em ∈ mig.editMeta) ∧ em.path = path

variable {migs : List Migration} {name : FileName}

section

variable (hl : (MetaEditFilters.fromMigrations migs).lookup name = some f)
include hl

theorem filterSound_fromMigrations : FilterSound (EditedBy migs name) f := by
  have hnone : ∀ name g, (∅ : MetaEditFilters).lookup name = some g →
      FilterSound (fun em => False ∧ em.path = name) g := nofun
  refine (filterSound_foldl hnone name f hl).mono fun em hem => ⟨?_, hem.2⟩
  exact mem_flatMap.1 (hem.1.resolve_left id)

theorem named_of_not_retained {id : LogFileId}
    (hr : f.shouldRetain id = false) : ∃ em, EditedBy migs name em ∧ em.Names id := by
  have hs := filterSound_fromMigrations hl
  unfold MetaEditFilter.shouldRetain at hr
  split at hr
  · rename_i hfull
    obtain ⟨em, hem, hn⟩ := hs.full _ hfull
    exact ⟨em, hem, .inl hn⟩
  · cases hseg : f.segments.lookup id.name with
    | none => rw [hseg] at hr; cases hr
    | some offsets =>
      rw [hseg] at hr
      have hmem : id.offset ∈ offsets := by simpa using hr
      obtain ⟨em, hem, hd⟩ := hs.segments _ _ hseg _ hmem
      exact ⟨em, hem, .inr hd⟩

end

theorem marked_of_shouldFullySkip (h : (MetaEditFilters.fromMigrations migs).shouldFullySkip name = true) :
    ∃ em, EditedBy migs name em ∧ (em.destructSelf = true ∨ em.allDataFilesCompacted = true) := by
  unfold MetaEditFilters.shouldFullySkip at h
  cases hl : (MetaEditFilters.fromMigrations migs).lookup name with
  | none => rw [hl] at h; cases h
  | some f =>
    rw [hl] at h
    have hs := filterSound_fromMigrations hl
    rcases Bool.or_eq_true_iff.1 h with h | h
    · obtain ⟨em, hem, hc⟩ := hs.compacted h
      exact ⟨em, hem, .inr hc⟩
    obtain ⟨em, hem, hd⟩ := hs.destructed h
    exact ⟨em, hem, .inl hd⟩

end Compact
end Tikv
