import Tikv.CompactStorage
import Mathlib.Data.Finset.Basic
/-!
# CompactCollector — log files grouped into subcompactions (`SubcompactionCollector`)

Data files in the range are grouped by region, table, column family and type; a group that has grown to the threshold is
a subcompaction, and what is left at the end is one for each group.  Every file that is taken is an input of one
subcompaction (`count_collect`), of its own group (`collect_of_taken`).
-/
namespace Tikv
namespace Compact

open Lib List

structure Input where
  id : LogFileId
  crc64xor : Nat
  keyValueSize : Nat
  numOfEntries : Nat
deriving DecidableEq, Repr

/-- A header of two `u32` is before each entry. -/
def LogFile.hackyKeyValueSize (f : LogFile) : Nat := f.fileRealSize - 8 * f.numberOfEntries

def toInput (f : LogFile) : Input := ⟨f.id, f.crc64xor, f.hackyKeyValueSize, f.numberOfEntries⟩

structure EpochHint where
  regionEpoch : RegionEpoch
  startKey : Bytes
  endKey : Bytes
deriving DecidableEq, Repr

def LogFile.epochHints (f : LogFile) : List EpochHint :=
  f.regionEpoches.toList.flatMap fun epoches => f.regionStartKey.toList.flatMap fun sk =>
    f.regionEndKey.toList.flatMap fun ek => epoches.map fun v => ⟨v, sk, ek⟩

structure SubcompactionCollectKey where
  cf : Bytes
  regionId : Nat
  ty : FileType
  isMeta : Bool
  tableId : Int
deriving DecidableEq, Repr

open SubcompactionCollectKey

def SubcompactionCollectKey.byFile (f : LogFile) : SubcompactionCollectKey :=
  ⟨f.cf, f.regionId, f.ty, f.isMeta, f.tableId⟩

structure CollectSubcompactionConfig where
  compactFromTs : Nat
  compactToTs : Nat
  subcompactionSizeThreshold : Nat

structure Subcompaction where
  inputs : List Input
  size : Nat
  subcKey : SubcompactionCollectKey
  inputMaxTs : Nat
  inputMinTs : Nat
  compactFromTs : Nat
  compactToTs : Nat
  /-- The source has them in a vector, in some order. -/
  epochHints : Finset EpochHint
deriving DecidableEq

structure UnformedSubcompaction where
  size : Nat
  inputs : List Input
  minTs : Nat
  maxTs : Nat
  epochHints : Finset EpochHint

namespace UnformedSubcompaction

def byFile (f : LogFile) : UnformedSubcompaction :=
  ⟨f.fileRealSize, [toInput f], f.minTs, f.maxTs, f.epochHints.toFinset⟩

def form (u : UnformedSubcompaction) (key : SubcompactionCollectKey) (cfg : CollectSubcompactionConfig) :
    Subcompaction :=
  ⟨u.inputs, u.size, key, u.maxTs, u.minTs, cfg.compactFromTs, cfg.compactToTs, u.epochHints⟩

def addFile (u : UnformedSubcompaction) (f : LogFile) : UnformedSubcompaction :=
  ⟨u.size + f.fileRealSize, u.inputs ++ [toInput f], min u.minTs f.minTs, max u.maxTs f.maxTs,
    u.epochHints ∪ f.epochHints.toFinset⟩

end UnformedSubcompaction

abbrev CollectorItems := Map SubcompactionCollectKey UnformedSubcompaction

def CollectSubcompactionConfig.skips (cfg : CollectSubcompactionConfig) (f : LogFile) : Bool :=
  f.isMeta || decide (f.maxTs < cfg.compactFromTs) || decide (f.minTs > cfg.compactToTs)

def addNewFile (cfg : CollectSubcompactionConfig) (items : CollectorItems) (f : LogFile) :
    CollectorItems × Option Subcompaction :=
  let key := SubcompactionCollectKey.byFile f
  if cfg.skips f then (items, none)
  else
    match items.lookup key with
    | some u =>
      let u := u.addFile f
      if u.size > cfg.subcompactionSizeThreshold then (items.erase key, some (u.form key cfg))
      else (items.insert key u, none)
    | none => (items.insert key (.byFile f), none)

def takePendingSubcompactions (cfg : CollectSubcompactionConfig) (items : CollectorItems) : List Subcompaction :=
  items.entries.map fun x => x.2.form x.1 cfg

def collectFrom (cfg : CollectSubcompactionConfig) (items : CollectorItems) : List LogFile → List Subcompaction
  | [] => takePendingSubcompactions cfg items
  | f :: files => (addNewFile cfg items f).2.toList ++ collectFrom cfg (addNewFile cfg items f).1 files

def collect (cfg : CollectSubcompactionConfig) (files : List LogFile) : List Subcompaction := collectFrom cfg ∅ files

/-! ## Every file is an input once -/

def occurs (id : LogFileId) (inputs : List Input) : Nat := (inputs.map (·.id)).count id

variable (id : LogFileId)

theorem occurs_append (l₁ l₂ : List Input) : occurs id (l₁ ++ l₂) = occurs id l₁ + occurs id l₂ := by
  unfold occurs
  rw [map_append, count_append]

def pendingOccurs (id : LogFileId) (items : CollectorItems) : Nat := Map.weigh (fun _ u => occurs id u.inputs) items

variable {cfg : CollectSubcompactionConfig} {f : LogFile}

theorem addNewFile_of_skips (h : cfg.skips f = true)
    (items : CollectorItems) : addNewFile cfg items f = (items, none) := if_pos h

theorem occurs_addNewFile (h : cfg.skips f = false) (items : CollectorItems) :
    ((addNewFile cfg items f).2.toList.map fun c => occurs id c.inputs).sum +
        pendingOccurs id (addNewFile cfg items f).1 =
      pendingOccurs id items + occurs id [toInput f] := by
  have hsplit := Map.weigh_eq_erase (fun _ (u : UnformedSubcompaction) => occurs id u.inputs)
    (byFile f) items
  unfold addNewFile pendingOccurs
  rw [if_neg (Bool.eq_false_iff.1 h)]
  cases hl : items.lookup (byFile f) with
  | none =>
    rw [hl] at hsplit
    dsimp only [Option.elim] at hsplit ⊢
    rw [Map.weigh_insert, Option.toList_none]
    show 0 + (occurs id [toInput f] + _) = _
    omega
  | some u =>
    rw [hl] at hsplit
    dsimp only [Option.elim] at hsplit ⊢
    have hadd : occurs id (u.addFile f).inputs = occurs id u.inputs + occurs id [toInput f] := occurs_append _ _ _
    split
    · show occurs id (u.addFile f).inputs + Map.weigh (fun _ v => occurs id v.inputs) (AList.erase _ items) = _
      omega
    rw [Map.weigh_insert, Option.toList_none, map_nil, sum_nil]
    omega

theorem count_collectFrom (cfg : CollectSubcompactionConfig) : ∀ (files : List LogFile)
    (items : CollectorItems), ((collectFrom cfg items files).map fun c => occurs id c.inputs).sum =
      pendingOccurs id items + ((files.filter fun f => !cfg.skips f).map (·.id)).count id
  | [], items => by
    rw [collectFrom, takePendingSubcompactions, map_map, filter_nil]
    rfl
  | f :: files, items => by
    have ih := count_collectFrom cfg files (addNewFile cfg items f).1
    rw [collectFrom, map_append, sum_append, ih, ← add_assoc]
    cases hskip : cfg.skips f with
    | true =>
      rw [addNewFile_of_skips hskip, filter_cons_of_neg (by rw [hskip]; exact Bool.false_ne_true)]
      exact congrArg (· + _) (zero_add _)
    | false =>
      have hone : occurs id [toInput f] = if f.id == id then 1 else 0 := by
        unfold occurs
        rw [map_singleton, count_singleton]
        rfl
      rw [occurs_addNewFile _ hskip, filter_cons_of_pos (by rw [hskip]; rfl), map_cons, count_cons]
      omega

theorem count_collect (files : List LogFile) : ((collect cfg files).map fun c => occurs id c.inputs).sum =
      ((files.filter fun f => !cfg.skips f).map (·.id)).count id :=
  (count_collectFrom id cfg files ∅).trans (zero_add _)

/-! ## Inputs are of their group -/

variable {P : SubcompactionCollectKey → Input → Prop}

theorem addNewFile_of_taken {items : CollectorItems} (hf : cfg.skips f = false → P (.byFile f) (toInput f))
    (hitems : ∀ key u, items.lookup key = some u → ∀ i ∈ u.inputs, P key i) :
    (∀ key u, (addNewFile cfg items f).1.lookup key = some u → ∀ i ∈ u.inputs, P key i) ∧
      ∀ c ∈ (addNewFile cfg items f).2, ∀ i ∈ c.inputs, P c.subcKey i := by
  have hinsert : ∀ u : UnformedSubcompaction, (∀ i ∈ u.inputs, P (.byFile f) i) →
      ∀ key v, (items.insert (byFile f) u).lookup key = some v → ∀ i ∈ v.inputs, P key i := by
    intro u hu key v hv
    rcases Map.lookup_insert_cases hv with ⟨rfl, rfl⟩ | hv
    · exact hu
    · exact hitems key v hv
  unfold addNewFile
  dsimp only
  split
  · exact ⟨hitems, nofun⟩
  rename_i hskip
  have hf := hf (Bool.eq_false_iff.2 hskip)
  cases hl : items.lookup (byFile f) with
  | none => exact ⟨hinsert _ (forall_mem_singleton.2 hf), nofun⟩
  | some u =>
    have hadded : ∀ i ∈ (u.addFile f).inputs, P (.byFile f) i :=
      forall_mem_append.2 ⟨hitems _ u hl, forall_mem_singleton.2 hf⟩
    dsimp only
    split
    · refine ⟨fun key v hv => hitems key v (Map.lookup_of_erase hv), ?_⟩
      rintro _ ⟨⟩
      exact hadded
    · exact ⟨hinsert _ hadded, nofun⟩

theorem collectFrom_of_taken :
    ∀ {files : List LogFile} {items : CollectorItems}, (∀ f ∈ files, cfg.skips f = false → P (.byFile f) (toInput f)) →
      (∀ key u, items.lookup key = some u → ∀ i ∈ u.inputs, P key i) →
      ∀ c ∈ collectFrom cfg items files, ∀ i ∈ c.inputs, P c.subcKey i
  | [], items, _, hitems, c, hc, i, hi => by
    obtain ⟨x, hx, rfl⟩ := mem_map.1 hc
    exact hitems x.1 x.2 (Map.mem_entries.1 hx) i hi
  | f :: files, items, hfiles, hitems, c, hc, i, hi => by
    obtain ⟨hf, hrest⟩ := forall_mem_cons.1 hfiles
    obtain ⟨hpending, hformed⟩ := addNewFile_of_taken hf hitems
    rcases mem_append.1 hc with hc | hc
    · exact hformed c (Option.mem_toList.1 hc) i hi
    · exact collectFrom_of_taken hrest hpending c hc i hi

theorem collect_of_taken {files : List LogFile}
    (hfiles : ∀ f ∈ files, cfg.skips f = false → P (.byFile f) (toInput f)) :
    ∀ c ∈ collect cfg files, ∀ i ∈ c.inputs, P c.subcKey i :=
  collectFrom_of_taken hfiles nofun

end Compact
end Tikv
