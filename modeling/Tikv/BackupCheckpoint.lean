import Tikv.LibMap
/-!
# BackupCheckpoint — the checkpoints of a log backup (`CheckpointManager`)

What the regions are resolved to is collected in `resolved_ts`; a flush freezes it and, when its files are written,
publishes what it froze together with what was resolved for the flush.  A published checkpoint of a region is one of
these (`reads_foldl_updateTs`).
-/
namespace Tikv
namespace Backup

open Lib

structure Region where
  id : Nat
  version : Nat
deriving DecidableEq, Repr

structure LastFlushTsOfRegion where
  region : Region
  checkpoint : Nat
deriving DecidableEq, Repr

structure ResolveResult where
  region : Region
  checkpoint : Nat
deriving DecidableEq, Repr

abbrev Checkpoints := Map Nat LastFlushTsOfRegion

/-- A newer version of a region takes the place of an older one, and of one version the larger checkpoint stays. -/
def updateTs (container : Checkpoints) (rr : ResolveResult) : Checkpoints :=
  let new := ⟨rr.region, rr.checkpoint⟩
  match container.lookup rr.region.id with
  | none => container.insert rr.region.id new
  | some old =>
    if old.region.version < rr.region.version ∨
        old.region.version = rr.region.version ∧ old.checkpoint < rr.checkpoint then
      container.insert rr.region.id new
    else container

structure CheckpointManager where
  checkpointTs : Checkpoints
  frozenResolvedTs : Checkpoints
  resolvedTs : Checkpoints

namespace CheckpointManager

def resolveRegions (m : CheckpointManager) (regionAndCheckpoint : List ResolveResult) : CheckpointManager :=
  { m with resolvedTs := regionAndCheckpoint.foldl updateTs m.resolvedTs }

def flushAndNotify (m : CheckpointManager) (lastDive : List ResolveResult) : CheckpointManager :=
  { m with checkpointTs := lastDive.foldl updateTs m.frozenResolvedTs, frozenResolvedTs := ∅ }

def freeze (m : CheckpointManager) : CheckpointManager := { m with frozenResolvedTs := m.resolvedTs, resolvedTs := ∅ }

end CheckpointManager

def Reads (c : Checkpoints) (id ts : Nat) : Prop := ∃ e, c.lookup id = some e ∧ e.checkpoint = ts

def Resolves (results : List ResolveResult) (id ts : Nat) : Prop :=
  ∃ rr ∈ results, rr.region.id = id ∧ rr.checkpoint = ts

theorem Resolves.append_right {results promised : List ResolveResult} {id ts : Nat} (h : Resolves promised id ts) :
    Resolves (results ++ promised) id ts := by
  obtain ⟨rr, hmem, h⟩ := h
  exact ⟨rr, List.mem_append_right _ hmem, h⟩

theorem Resolves.append_left {results promised : List ResolveResult} {id ts : Nat} (h : Resolves results id ts) :
    Resolves (results ++ promised) id ts := by
  obtain ⟨rr, hmem, h⟩ := h
  exact ⟨rr, List.mem_append_left _ hmem, h⟩

theorem not_reads_empty (id ts : Nat) : ¬ Reads ∅ id ts := by
  rintro ⟨e, he, -⟩
  cases he

theorem reads_updateTs {c : Checkpoints} {rr : ResolveResult} {id ts : Nat} (h : Reads (updateTs c rr) id ts) :
    Reads c id ts ∨ rr.region.id = id ∧ rr.checkpoint = ts := by
  have hinsert : ∀ {e}, (AList.insert rr.region.id ⟨rr.region, rr.checkpoint⟩ c).lookup id = some e →
      e.checkpoint = ts → Reads c id ts ∨ rr.region.id = id ∧ rr.checkpoint = ts := by
    intro e he hts
    rcases Map.lookup_insert_cases he with ⟨heq, rfl⟩ | he
    · exact .inr ⟨heq.symm, hts⟩
    · exact .inl ⟨e, he, hts⟩
  obtain ⟨e, he, hts⟩ := h
  unfold updateTs at he
  split at he
  · exact hinsert he hts
  split at he
  · exact hinsert he hts
  · exact .inl ⟨e, he, hts⟩

theorem reads_foldl_updateTs : ∀ (results : List ResolveResult) {c : Checkpoints} {id ts : Nat},
    Reads (results.foldl updateTs c) id ts → Reads c id ts ∨ Resolves results id ts
  | [], _, _, _, h => .inl h
  | rr :: results, c, id, ts, h => by
    rcases reads_foldl_updateTs results h with h | ⟨rr', hmem, h⟩
    · rcases reads_updateTs h with h | h
      · exact .inl h
      · exact .inr ⟨rr, List.mem_cons_self, h⟩
    · exact .inr ⟨rr', List.mem_cons_of_mem _ hmem, h⟩

end Backup
end Tikv
