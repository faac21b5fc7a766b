import Tikv.TxnKey
/-!
# RaftSplitObserver — split keys as they are proposed (`raftstore::coprocessor::SplitObserver`)

A requested split key is cut after the memcomparable string it starts with; what follows is most likely a timestamp.  Keys
that are then not strictly inside the region, or not above the key kept before them, are dropped.  What is left are split
keys of the region that never separate the versions of a user key (`onSplit_sound`).
-/
namespace Tikv
namespace Split

open Lib Codec Txn List

inductive DecodeError
  | unexpectedEof
  | keyPadding

/-- The loop of `decode_bytes`, from `offset` on, for at most so many rounds: the key, and the data after it. -/
def decodeLoop (data : Bytes) (desc : Bool) : Nat → Nat → Bytes → Except DecodeError (Bytes × Bytes)
  | 0, _, _ => .error .unexpectedEof
  | rounds + 1, offset, key =>
    let nextOffset := offset + (encGroupSize + 1)
    if nextOffset ≤ data.length then
      let bytes := (data.drop offset).take encGroupSize
      let marker := data[offset + encGroupSize]?.getD 0
      let padSize := if desc then marker.toNat else (encMarker - marker).toNat
      if padSize = 0 then decodeLoop data desc rounds nextOffset (key ++ bytes)
      else if padSize > encGroupSize then .error .keyPadding
      else if (bytes.drop (encGroupSize - padSize)).any (· ≠ if desc then ~~~ 0 else 0) then .error .keyPadding
      else .ok (adjustBytesOrder (key ++ bytes.take (encGroupSize - padSize)) desc, data.drop nextOffset)
    else .error .unexpectedEof

def decodeBytes (data : Bytes) (desc : Bool) : Except DecodeError (Bytes × Bytes) :=
  decodeLoop data desc (data.length + 1) 0 []

def stripTimestampIfExists (key : Bytes) : Bytes :=
  let stripLen := match decodeBytes key false with
    | .ok (_, slice) => slice.length
    -- a raw key
    | .error _ => 0
  key.take (key.length - stripLen)

structure Region where
  startKey : Bytes
  endKey : Bytes

def checkKeyInRegionExclusive (key : Bytes) (region : Region) : Bool :=
  region.startKey < key && (key < region.endKey || region.endKey.isEmpty)

def isValidSplitKey (key : Bytes) (region : Region) : Bool :=
  if key.isEmpty then false else checkKeyInRegionExclusive key region

structure SplitRequest where
  splitKey : Bytes
  newRegionId : UInt64
  newPeerIds : List UInt64

def coalesceFrom (prev : SplitRequest) : List SplitRequest → List SplitRequest
  | [] => [prev]
  | curr :: splits =>
    if prev.splitKey < curr.splitKey then prev :: coalesceFrom curr splits else coalesceFrom prev splits

def coalesce : List SplitRequest → List SplitRequest
  | [] => []
  | split :: splits => coalesceFrom split splits

def noValidSplitKey : String := "no valid key found for split."

def onSplit (region : Region) (splits : List SplitRequest) : Except String (List SplitRequest) :=
  let adjusted := splits.filterMap fun split =>
    let key := stripTimestampIfExists split.splitKey
    if isValidSplitKey key region then some { split with splitKey := key } else none
  if (coalesce adjusted).isEmpty then .error noValidSplitKey else .ok (coalesce adjusted)

/-! ## Stripping -/

theorem toNat_padSize {g : Bytes} : (encMarker - (encMarker - UInt8.ofNat (encGroupSize - g.length))).toNat =
    encGroupSize - g.length := by
  have htable : ∀ k ≤ 8, (encMarker - (encMarker - UInt8.ofNat k)).toNat = k := by decide
  exact htable _ (Nat.sub_le ..)

theorem decodeLoop_group {data g tail : Bytes} {offset : Nat} (hdata : data.drop offset = encodeGroup g ++ tail)
    (hg : g.length ≤ encGroupSize) (rounds : Nat) (key : Bytes) : data.drop (offset + (encGroupSize + 1)) = tail ∧
    decodeLoop data false (rounds + 1) offset key =
      if g.length = encGroupSize then decodeLoop data false rounds (offset + (encGroupSize + 1)) (key ++ g)
      else .ok (key ++ g, tail) := by
  have hpad : (g ++ replicate (encGroupSize - g.length) 0).length = encGroupSize := by simp; omega
  rw [encodeGroup, append_assoc, singleton_append] at hdata
  obtain ⟨hlt, hbytes, hmarker, htail⟩ := chunk_of_drop hdata
  rw [hpad] at hlt hbytes hmarker htail
  refine ⟨htail, ?_⟩
  rw [decodeLoop]
  simp only [hmarker, hbytes, htail, Option.getD_some, toNat_padSize, Bool.false_eq_true, if_false]
  rw [if_pos (by omega)]
  by_cases hfull : g.length = encGroupSize
  · simp [hfull]
  · rw [if_neg (by omega), if_neg (by omega), Nat.sub_sub_self hg, if_neg hfull]
    simp [adjustBytesOrder]

theorem decodeLoop_encode {data u rest : Bytes} : ∀ {m rounds index offset : Nat} {key : Bytes}, index ≤ u.length →
    u.length < index + m → m ≤ rounds → data.drop offset = encodeLoop u false m index ++ rest →
    ∃ key', decodeLoop data false rounds offset key = .ok (key', rest)
  | 0, _, _, _, _, _, hm, _, _ => by omega
  | m + 1, rounds + 1, index, offset, key, hle, hm, hrounds, hdata => by
    have hg : ((u.drop index).take encGroupSize).length ≤ encGroupSize := by rw [length_take]; omega
    rw [encodeLoop_of_le hle, append_assoc] at hdata
    obtain ⟨htail, hstep⟩ := decodeLoop_group hdata hg rounds key
    rw [hstep]
    split
    · rename_i hfull
      rw [length_take, length_drop] at hfull
      have hpos : 0 < encGroupSize := by decide
      exact decodeLoop_encode (by omega) (by omega) (by omega) htail
    · rename_i hlast
      rw [length_take, length_drop] at hlast
      rw [encodeLoop_of_gt (by omega)]
      exact ⟨_, rfl⟩

theorem stripTimestampIfExists_encode (u rest : Bytes) : stripTimestampIfExists (fromRaw u ++ rest) = fromRaw u := by
  have hle : u.length ≤ (fromRaw u).length := by
    rw [fromRaw, length_encodeBytes, maxEncodedBytesSize, encGroupSize]
    omega
  obtain ⟨key, hkey⟩ : ∃ key, decodeBytes (fromRaw u ++ rest) false = .ok (key, rest) :=
    decodeLoop_encode (Nat.zero_le _) (by omega) (by rw [length_append]; omega) rfl
  simp [stripTimestampIfExists, hkey]

/-! ## The keys that are left -/

def Region.Inside (region : Region) (key : Bytes) : Prop :=
  region.startKey < key ∧ (key < region.endKey ∨ region.endKey = [])

theorem isValidSplitKey_iff {key : Bytes} {region : Region} : isValidSplitKey key region = true ↔ region.Inside key := by
  cases key <;> simp [isValidSplitKey, checkKeyInRegionExclusive, Region.Inside]

theorem coalesceFrom_spec : ∀ (prev : SplitRequest) (splits : List SplitRequest), ∃ kept ⊆ splits,
    coalesceFrom prev splits = prev :: kept ∧ ((prev :: kept).map (·.splitKey)).IsChain (· < ·)
  | prev, [] => ⟨[], Subset.refl _, rfl, .singleton _⟩
  | prev, curr :: splits => by
    rw [coalesceFrom]
    split
    · rename_i hlt
      obtain ⟨kept, hsub, heq, hchain⟩ := coalesceFrom_spec curr splits
      exact ⟨curr :: kept, cons_subset_cons _ hsub, by rw [heq], .cons_cons hlt hchain⟩
    · obtain ⟨kept, hsub, heq, hchain⟩ := coalesceFrom_spec prev splits
      exact ⟨kept, subset_cons_of_subset _ hsub, heq, hchain⟩

theorem coalesce_spec (splits : List SplitRequest) : coalesce splits ⊆ splits ∧
    ((coalesce splits).map (·.splitKey)).Pairwise (· < ·) ∧ (coalesce splits = [] → splits = []) := by
  cases splits with
  | nil => exact ⟨Subset.refl _, .nil, id⟩
  | cons split splits =>
    obtain ⟨kept, hsub, heq, hchain⟩ := coalesceFrom_spec split splits
    rw [coalesce, heq]
    exact ⟨cons_subset_cons _ hsub, hchain.pairwise, (nomatch ·)⟩

/-- **Split keys are valid and never separate versions.** -/
theorem onSplit_sound (region : Region) (splits : List SplitRequest) :
    match onSplit region splits with
    | .error e => e = noValidSplitKey ∧ ∀ split ∈ splits, ¬ region.Inside (stripTimestampIfExists split.splitKey)
    | .ok adjusted =>
      adjusted ≠ [] ∧ (adjusted.map (·.splitKey)).Pairwise (· < ·) ∧
      (∀ s ∈ adjusted, region.Inside s.splitKey ∧ ∃ split ∈ splits,
        s = { split with splitKey := stripTimestampIfExists split.splitKey }) ∧
      ((∀ split ∈ splits, ∃ u, split.splitKey = fromRaw u ∨ ∃ ts, split.splitKey = appendTs (fromRaw u) ts) →
        ∀ s ∈ adjusted, ∀ u ts ts', appendTs (fromRaw u) ts < s.splitKey ↔ appendTs (fromRaw u) ts' < s.splitKey) := by
  unfold onSplit
  dsimp only
  generalize hadjusted : splits.filterMap _ = adjusted
  obtain ⟨hsub, hsorted, hnil⟩ := coalesce_spec adjusted
  have hmem : ∀ s, s ∈ adjusted ↔ ∃ split ∈ splits, region.Inside (stripTimestampIfExists split.splitKey) ∧
      s = { split with splitKey := stripTimestampIfExists split.splitKey } := by
    intro s
    simp [← hadjusted, isValidSplitKey_iff, @eq_comm _ s]
  cases hempty : (coalesce adjusted).isEmpty with
  | true =>
    refine ⟨rfl, fun split hsplit hinside => ?_⟩
    have hin := (hmem _).2 ⟨split, hsplit, hinside, rfl⟩
    rw [hnil (isEmpty_iff.1 hempty)] at hin
    cases hin
  | false =>
    refine ⟨by simpa using hempty, hsorted, fun s hs => ?_, fun hencoded s hs u ts ts' => ?_⟩
    · obtain ⟨split, hsplit, hinside, rfl⟩ := (hmem s).1 (hsub hs)
      exact ⟨hinside, split, hsplit, rfl⟩
    · obtain ⟨split, hsplit, -, rfl⟩ := (hmem s).1 (hsub hs)
      obtain ⟨v, hv⟩ : ∃ v, stripTimestampIfExists split.splitKey = fromRaw v := by
        obtain ⟨v, hv | ⟨t, hv⟩⟩ := hencoded split hsplit
        · exact ⟨v, by simpa [hv] using stripTimestampIfExists_encode v []⟩
        · exact ⟨v, hv ▸ stripTimestampIfExists_encode v _⟩
      -- no encoded key is a prefix of another, so the timestamp is not reached
      have hside : ∀ t, appendTs (fromRaw u) t < fromRaw v ↔ u < v := by
        intro t
        simpa [appendTs, fromRaw] using memcomparable_encodeBytes u v (encodeU64Desc t) []
      simp only [hv, hside]

example : (onSplit ⟨[], []⟩ [⟨appendTs (fromRaw [1]) 5, 2, []⟩]).toOption.map (·.map (·.splitKey)) = some [fromRaw [1]] := by
  decide

end Split
end Tikv
