import Tikv.CompactCollector
/-!
# BackupRegionHints — region hints, from a flush to a subcompaction (`fill_region_info`, `epoch_hints`)

A flush gives each of its data files the epochs its region was resolved at and one range for all of them, the smallest
start and the largest end by the order of bytes.  Compaction hands these on as hints.  An empty end key has no upper end
but is the smallest of all, so a bounded entry of the region takes its place (`hintsCover_iff`).
-/
namespace Tikv
namespace Hints

open Lib Tikv.Compact UnformedSubcompaction

structure Region where
  id : Nat
  startKey : Bytes
  endKey : Bytes
  regionEpoch : RegionEpoch
deriving DecidableEq, Repr

structure RegionInfo where
  epoch : List RegionEpoch
  start : Bytes
  stop : Bytes
deriving DecidableEq, Repr

def RegionInfo.modify (i : RegionInfo) (r : Region) : RegionInfo where
  epoch := i.epoch ++ [r.regionEpoch]
  start := if r.startKey < i.start then r.startKey else i.start
  stop := if i.stop < r.endKey then r.endKey else i.stop

def enter (rmap : Map Nat RegionInfo) (r : Region) : Map Nat RegionInfo :=
  rmap.insert r.id (((rmap.lookup r.id).map (·.modify r)).getD ⟨[r.regionEpoch], r.startKey, r.endKey⟩)

structure DataFileInfo where
  rangeOffset : Nat
  rangeLength : Nat
  length : Nat
  numberOfEntries : Nat
  crc64xor : Nat
  regionId : Nat
  cf : Bytes
  minTs : Nat
  maxTs : Nat
  regionStartKey : Bytes
  regionEndKey : Bytes
  regionEpoch : List RegionEpoch
  isMeta : Bool
  rType : FileType
  tableId : Int
deriving DecidableEq, Repr

structure DataFileGroup where
  path : FileName
  dataFilesInfo : List DataFileInfo
deriving DecidableEq, Repr

def fillFile (rmap : Map Nat RegionInfo) (f : DataFileInfo) : DataFileInfo :=
  match rmap.lookup f.regionId with
  | some i => { f with regionEpoch := i.epoch, regionStartKey := i.start, regionEndKey := i.stop }
  | none => f

def fillRegionInfo (resolveResults : List Region) (fileGroups : List DataFileGroup) : List DataFileGroup :=
  let rmap := resolveResults.foldl enter ∅
  fileGroups.map fun group => { group with dataFilesInfo := group.dataFilesInfo.map (fillFile rmap) }

def fromPb (hostFile : FileName) (pb : DataFileInfo) : LogFile where
  id := ⟨hostFile, pb.rangeOffset, pb.rangeLength⟩
  fileRealSize := pb.length
  numberOfEntries := pb.numberOfEntries
  crc64xor := pb.crc64xor
  regionId := pb.regionId
  cf := pb.cf
  minTs := pb.minTs
  maxTs := pb.maxTs
  regionStartKey := if pb.regionEpoch.isEmpty then none else some pb.regionStartKey
  regionEndKey := if pb.regionEpoch.isEmpty then none else some pb.regionEndKey
  regionEpoches := if pb.regionEpoch.isEmpty then none else some pb.regionEpoch
  isMeta := pb.isMeta
  ty := pb.rType
  tableId := pb.tableId

theorem mem_epochHints_fromPb {path : FileName} {pb : DataFileInfo} {h : EpochHint} :
    h ∈ (fromPb path pb).epochHints ↔
      h.regionEpoch ∈ pb.regionEpoch ∧ h.startKey = pb.regionStartKey ∧ h.endKey = pb.regionEndKey := by
  by_cases he : pb.regionEpoch = []
  · simp [LogFile.epochHints, fromPb, he]
  · obtain ⟨v, sk, ek⟩ := h
    simp only [LogFile.epochHints, fromPb, List.isEmpty_iff, if_neg he, Option.toList_some, List.flatMap_singleton,
      List.mem_map]
    grind

theorem mem_foldl_addFile {h : EpochHint} (fs : List LogFile) (u : UnformedSubcompaction) :
    h ∈ (fs.foldl addFile u).epochHints ↔ h ∈ u.epochHints ∨ ∃ f ∈ fs, h ∈ f.epochHints := by
  induction fs generalizing u with
  | nil => simp
  | cons f fs ih => simp [ih, addFile, or_assoc]

/-! ## What `rmap` holds -/

structure Folds (rs : List Region) (i : RegionInfo) : Prop where
  epoch : i.epoch = rs.map (·.regionEpoch)
  start_le : ∀ r ∈ rs, i.start ≤ r.startKey
  le_stop : ∀ r ∈ rs, r.endKey ≤ i.stop
  stop_mem : ∃ r ∈ rs, r.endKey = i.stop

theorem Folds.modify {rs : List Region} {i : RegionInfo} (h : Folds rs i) (r : Region) :
    Folds (rs ++ [r]) (i.modify r) where
  epoch := by simp [RegionInfo.modify, h.epoch]
  start_le := by
    have hs : (i.modify r).start = min r.startKey i.start := by
      simp only [RegionInfo.modify]
      split <;> grind
    simp only [List.mem_append, List.mem_singleton, hs]
    rintro r' (hr | rfl)
    · exact min_le_of_right_le (h.start_le r' hr)
    · exact min_le_left ..
  le_stop := by
    simp only [List.mem_append, List.mem_singleton, RegionInfo.modify]
    rintro r' (hr | rfl)
    · have := h.le_stop r' hr
      split <;> grind
    · split <;> grind
  stop_mem := by
    by_cases hlt : i.stop < r.endKey
    · exact ⟨r, by simp, by simp [RegionInfo.modify, hlt]⟩
    · obtain ⟨r', hr, he⟩ := h.stop_mem
      exact ⟨r', by simp [hr], by simp [RegionInfo.modify, hlt, he]⟩

-- Induction from the right, as the source goes through the list: an entry changes the value of its own id alone.
theorem lookup_foldl_enter (resolved : List Region) (id : Nat) :
    match (resolved.foldl enter ∅).lookup id with
    | none => resolved.filter (·.id = id) = []
    | some i => Folds (resolved.filter (·.id = id)) i := by
  induction resolved using List.reverseRecOn with
  | nil => simp
  | append_singleton rs r ih =>
    simp only [List.foldl_append, List.foldl_cons, List.foldl_nil, List.filter_append, enter, Map.lookup_insert]
    by_cases hid : r.id = id
    · subst hid
      cases hl : (rs.foldl enter ∅).lookup r.id with
      | none =>
        rw [hl] at ih
        simp only [ih]
        constructor <;> simp
      | some i =>
        rw [hl] at ih
        simpa [hl] using ih.modify r
    · simpa [hid, Ne.symm hid] using ih

/-! ## Hints against the resolved regions -/

structure Flush where
  resolved : List Region
  fileGroups : List DataFileGroup

def Flush.files (fl : Flush) : List LogFile :=
  (fillRegionInfo fl.resolved fl.fileGroups).flatMap fun group => group.dataFilesInfo.map (fromPb group.path)

def Covers (resolved : List Region) (id : Nat) (h : EpochHint) : Prop :=
  ∀ r ∈ resolved, r.id = id → r.regionEpoch = h.regionEpoch → keyRange r.startKey r.endKey ⊆ keyRange h.startKey h.endKey

/-- Every hint of a file, and every hint of a subcompaction of files of one region, taken from any of the flushes. -/
structure HintsCover (fls : List Flush) : Prop where
  file : ∀ fl ∈ fls, ∀ f ∈ fl.files, ∀ h ∈ f.epochHints, Covers fl.resolved f.regionId h
  subcompaction : ∀ (p : Flush × LogFile) (ps : List (Flush × LogFile)),
    (∀ q ∈ p :: ps, q.1 ∈ fls ∧ q.2 ∈ q.1.files ∧ q.2.regionId = p.2.regionId) →
    ∀ key cfg, ∀ h ∈ (((ps.map (·.2)).foldl addFile (byFile p.2)).form key cfg).epochHints,
      ∃ q ∈ p :: ps, h ∈ q.2.epochHints ∧ Covers q.1.resolved p.2.regionId h

/-- The entries of one region id either all have an upper end or all have none. -/
def EndsAgree (fl : Flush) : Prop :=
  ∀ group ∈ fl.fileGroups, ∀ f ∈ group.dataFilesInfo, ∀ r ∈ fl.resolved, ∀ r' ∈ fl.resolved,
    r.id = f.regionId → r'.id = f.regionId → r.endKey = [] → r'.endKey = []

theorem mem_files {fl : Flush} {g : LogFile} : g ∈ fl.files ↔ ∃ group ∈ fl.fileGroups, ∃ f ∈ group.dataFilesInfo,
    fromPb group.path (fillFile (fl.resolved.foldl enter ∅) f) = g := by
  simp [Flush.files, fillRegionInfo, List.mem_flatMap]

theorem regionId_fillFile (rmap : Map Nat RegionInfo) (f : DataFileInfo) : (fillFile rmap f).regionId = f.regionId := by
  unfold fillFile
  split <;> rfl

-- A file of a region with entries has the hints made of what `rmap` holds for it.
theorem hints_of_mem {fl : Flush} (path : FileName) {f : DataFileInfo} {r : Region} (hr : r ∈ fl.resolved)
    (hid : r.id = f.regionId) : ∃ i, Folds (fl.resolved.filter (·.id = f.regionId)) i ∧
      ∀ h, h ∈ (fromPb path (fillFile (fl.resolved.foldl enter ∅) f)).epochHints ↔
        h.regionEpoch ∈ i.epoch ∧ h.startKey = i.start ∧ h.endKey = i.stop := by
  have hl := lookup_foldl_enter fl.resolved f.regionId
  cases hi : (fl.resolved.foldl enter ∅).lookup f.regionId with
  | none =>
    rw [hi] at hl
    exact absurd hid (by simpa using List.filter_eq_nil_iff.1 hl r hr)
  | some i =>
    rw [hi] at hl
    exact ⟨i, hl, by simp [mem_epochHints_fromPb, fillFile, hi]⟩

theorem EndsAgree.covers {fl : Flush} (ha : EndsAgree fl) {g : LogFile} (hg : g ∈ fl.files) {h : EpochHint}
    (hh : h ∈ g.epochHints) : Covers fl.resolved g.regionId h := by
  obtain ⟨group, hgroup, f, hf, rfl⟩ := mem_files.1 hg
  intro r hr hid _
  rw [fromPb, regionId_fillFile] at hid
  obtain ⟨i, hi, hiff⟩ := hints_of_mem group.path hr hid
  obtain ⟨-, hs, he⟩ := (hiff h).1 hh
  obtain ⟨r', hr', hstop⟩ := hi.stop_mem
  rw [hs, he]
  rintro k ⟨hsk, hek⟩
  refine ⟨(hi.start_le r (by simp [hr, hid])).trans hsk, hek.imp (fun h0 => ?_) fun hlt => ?_⟩
  · rw [← hstop]
    exact ha group hgroup f hf r hr r' (List.mem_of_mem_filter hr') hid (by simpa using List.of_mem_filter hr') h0
  · exact hlt.trans_le (hi.le_stop r (by simp [hr, hid]))

-- An entry without an upper end reaches past every end but the empty one, and only the empty one is below that.
theorem endsAgree_of_covers {fl : Flush} (hc : ∀ g ∈ fl.files, ∀ h ∈ g.epochHints, Covers fl.resolved g.regionId h) :
    EndsAgree fl := by
  intro group hgroup f hf r hr r' hr' hid hid' h0
  obtain ⟨i, hi, hiff⟩ := hints_of_mem group.path hr hid
  have hv : r.regionEpoch ∈ i.epoch := by
    rw [hi.epoch]
    exact List.mem_map_of_mem (by simp [hr, hid])
  have hsub := hc _ (mem_files.2 ⟨group, hgroup, f, hf, rfl⟩) ⟨_, _, _⟩ ((hiff _).2 ⟨hv, rfl, rfl⟩) r hr
    (by rw [fromPb, regionId_fillFile, hid]) rfl
  obtain ⟨-, hstop | hlt⟩ := @hsub (max r.startKey i.stop) ⟨le_max_left .., .inl h0⟩
  · have hle : r'.endKey ≤ i.stop := hi.le_stop r' (by simp [hr', hid'])
    by_contra hne
    exact absurd (nil_lt_of_ne_nil hne) (not_lt.2 (hle.trans_eq hstop))
  · exact absurd hlt (not_lt.2 (le_max_right ..))

theorem hintsCover_iff (fls : List Flush) : HintsCover fls ↔ ∀ fl ∈ fls, EndsAgree fl := by
  constructor
  · intro hc fl hfl
    exact endsAgree_of_covers (hc.file fl hfl)
  · intro ha
    refine ⟨fun fl hfl f hf h hh => (ha fl hfl).covers hf hh, ?_⟩
    intro p ps hps key cfg h hh
    obtain ⟨q, hq, hhq⟩ : ∃ q ∈ p :: ps, h ∈ q.2.epochHints := by
      simp only [form, mem_foldl_addFile, byFile, List.mem_toFinset, List.mem_map] at hh
      grind
    obtain ⟨hfl, hfile, hid⟩ := hps q hq
    exact ⟨q, hq, hhq, hid ▸ (ha q.1 hfl).covers hfile hhq⟩

def grown : Flush where
  resolved := [⟨1, [10], [20], ⟨1, 1⟩⟩, ⟨1, [10], [], ⟨1, 2⟩⟩]
  fileGroups := [⟨[112], [⟨0, 4, 100, 1, 0, 1, [], 5, 5, [], [], [], false, .put, 1⟩]⟩]

theorem grown_uncovered : grown.files = [⟨⟨[112], 0, 4⟩, 100, 1, 0, 1, [], 5, 5, some [10], some [20],
    some [⟨1, 1⟩, ⟨1, 2⟩], false, .put, 1⟩] ∧ ¬ HintsCover [grown] := by
  refine ⟨by decide, fun hc => ?_⟩
  have ha := endsAgree_of_covers (hc.file grown (by simp))
  revert ha
  simp [EndsAgree, grown]

end Hints
end Tikv
