import Tikv.LibBytes
/-!
# SpanOverlap — the four tests of whether a region meets a span

The source cluster matches a region against its span subscriptions (`matchRegion`) and filters PD's region list when a
bridge starts (`resolveRegionsStatic`); the target filters the same list when it resolves a table's span
(`queryRegionsForRange`, with and without the keys) and when it subscribes (`resolveSpan`).  In each of them an empty
start key is the least key and an empty end key no end at all.  `matchRegion` is interval intersection; the other three
go wrong on some ranges with an unbounded side, and each has its exact condition here.
-/
namespace Tikv
namespace Span

open Lib

/-- A region of PD's answer: a missing id reads as 0, a missing or undecodable key as the empty one. -/
structure PdRegion where
  id : Nat
  startKey : Bytes
  endKey : Bytes
  confVer : Nat
  version : Nat
deriving DecidableEq, Repr

open PdRegion

structure SpanSubscription where
  startKey : Bytes
  endKey : Bytes
  sink : Nat
  eventBufferSize : Nat
  eventFlushIntervalMs : Nat
deriving DecidableEq, Repr

structure PcrRegistry where
  subscriptions : List SpanSubscription
deriving DecidableEq, Repr

def PcrRegistry.matchRegion (reg : PcrRegistry) (rStart rEnd : Bytes) : Option (Nat × Nat × Nat) :=
  (reg.subscriptions.find? fun sub =>
    (sub.startKey.isEmpty || rEnd.isEmpty || decide (rEnd > sub.startKey)) &&
    (sub.endKey.isEmpty || rStart.isEmpty || decide (rStart < sub.endKey))).map
    fun sub => (sub.sink, sub.eventBufferSize, sub.eventFlushIntervalMs)

def resolveRegionsStatic (regions : List PdRegion) (spanStart spanEnd : Bytes) :
    List (Nat × Bytes × Bytes × Nat × Nat) :=
  regions.filterMap fun r =>
    if r.id = 0 then none
    else if r.startKey.isEmpty && r.endKey.isEmpty then none
    else if (spanEnd.isEmpty || r.endKey.isEmpty || decide (r.endKey > spanStart)) &&
        (spanStart.isEmpty || r.startKey.isEmpty || decide (r.startKey < spanEnd)) then
      some (r.id, r.startKey, r.endKey, r.confVer, r.version)
    else none

def queryRegionsForRangeWithKeys (regions : List PdRegion) (startKey endKey : Bytes) : List (Nat × Bytes × Bytes) :=
  regions.filterMap fun r =>
    if r.id = 0 then none
    -- "Skip placeholder/empty regions (both start and end empty)"
    else if r.startKey.isEmpty && r.endKey.isEmpty then none
    else if (r.endKey.isEmpty || decide (r.endKey > startKey)) &&
        (r.startKey.isEmpty || decide (r.startKey < endKey)) then
      some (r.id, r.startKey, r.endKey)
    else none

def queryRegionsForRange (regions : List PdRegion) (startKey endKey : Bytes) : List Nat :=
  regions.filterMap fun r =>
    if r.id = 0 then none
    else if r.startKey.isEmpty && r.endKey.isEmpty then none
    else if (r.endKey.isEmpty || decide (r.endKey > startKey)) &&
        (r.startKey.isEmpty || decide (r.startKey < endKey)) then
      some r.id
    else none

def resolveSpan (regions : List PdRegion) (startKey endKey : Bytes) : List (Nat × Bytes × Bytes) :=
  regions.filterMap fun r =>
    if r.id = 0 then none
    else
      let overlaps :=
        -- no span specified: match all regions
        if startKey.isEmpty && endKey.isEmpty then true
        -- a region with no key range is included
        else if r.startKey.isEmpty && r.endKey.isEmpty then true
        else
          let beforeEnd := r.endKey.isEmpty || decide (r.startKey < endKey)
          let afterStart := startKey.isEmpty || decide (startKey < r.endKey)
          beforeEnd && afterStart
      if overlaps then some (r.id, r.startKey, r.endKey) else none

theorem queryRegionsForRange_eq (regions : List PdRegion) (startKey endKey : Bytes) :
    queryRegionsForRange regions startKey endKey = (queryRegionsForRangeWithKeys regions startKey endKey).map (·.1) := by
  unfold queryRegionsForRange queryRegionsForRangeWithKeys
  rw [List.map_filterMap]
  congr 1
  funext r
  split_ifs <;> rfl

/-! ## What a region has to do to pass -/

def Meets (r : PdRegion) (ss se : Bytes) : Prop :=
  (keyRange r.startKey r.endKey ∩ keyRange ss se).Nonempty

/-- Neither the region nor the span is empty as an interval. -/
def Proper (r : PdRegion) (ss se : Bytes) : Prop :=
  (keyRange r.startKey r.endKey).Nonempty ∧ (keyRange ss se).Nonempty

instance (r : PdRegion) (ss se : Bytes) : Decidable (Proper r ss se) :=
  decidable_of_iff ((r.endKey = [] ∨ r.startKey < r.endKey) ∧ (se = [] ∨ ss < se))
    (and_congr keyRange_nonempty keyRange_nonempty).symm

def PdRegion.IsWhole (r : PdRegion) : Prop := r.startKey = [] ∧ r.endKey = []

def PdRegion.EndsBy (r : PdRegion) (k : Bytes) : Prop := r.endKey ≠ [] ∧ r.endKey ≤ k

variable {r : PdRegion} {ss se : Bytes}

theorem PdRegion.not_endsBy : ¬ r.EndsBy ss ↔ r.endKey = [] ∨ ss < r.endKey := by
  rw [PdRegion.EndsBy, not_and_or, not_not, not_le]

theorem PdRegion.not_endsBy_nil : ¬ r.EndsBy [] := by
  rintro ⟨hne, hle⟩
  exact hle.not_gt (nil_lt_of_ne_nil hne)

theorem meets_iff (h : Proper r ss se) : Meets r ss se ↔ ¬ r.EndsBy ss ∧ (se = [] ∨ r.startKey < se) := by
  rw [Meets, keyRange_inter_nonempty h.1 h.2, not_endsBy]

-- An empty key is below every end key of a non-empty range, so testing for it adds nothing to a comparison with an end.
theorem lt_end_of_start {s e : Bytes} (h : e ≠ []) : s = [] ∨ s < e ↔ s < e := by
  constructor
  · rintro (rfl | hlt)
    · exact nil_lt_of_ne_nil h
    · exact hlt
  · exact .inr

theorem matchRegion_isSome (reg : PcrRegistry) (r : PdRegion)
    (h : ∀ sub ∈ reg.subscriptions, Proper r sub.startKey sub.endKey) :
    (reg.matchRegion r.startKey r.endKey).isSome ↔
      ∃ sub ∈ reg.subscriptions, Meets r sub.startKey sub.endKey := by
  unfold PcrRegistry.matchRegion
  rw [Option.isSome_map, List.find?_isSome]
  refine exists_congr fun sub => and_congr_right fun hmem => ?_
  rw [meets_iff (h sub hmem), not_endsBy]
  simp only [Bool.and_eq_true, Bool.or_eq_true, List.isEmpty_iff, decide_eq_true_eq]
  refine and_congr ?_ ?_
  · by_cases he : r.endKey = []
    · simp [he]
    · rw [or_assoc, or_iff_right he, lt_end_of_start he]
  · by_cases he : sub.endKey = []
    · simp [he]
    · rw [or_iff_right he, or_iff_right he, lt_end_of_start he]

/-! ## The three filters of PD's answer, on one region -/

def ResolveRegionsStaticAccepts (r : PdRegion) (ss se : Bytes) : Prop :=
  (r.id, r.startKey, r.endKey, r.confVer, r.version) ∈ resolveRegionsStatic [r] ss se

def QueryRegionsAccepts (r : PdRegion) (ss se : Bytes) : Prop :=
  (r.id, r.startKey, r.endKey) ∈ queryRegionsForRangeWithKeys [r] ss se

def ResolveSpanAccepts (r : PdRegion) (ss se : Bytes) : Prop :=
  (r.id, r.startKey, r.endKey) ∈ resolveSpan [r] ss se

section

variable (hid : r.id ≠ 0)
include hid

theorem resolveRegionsStaticAccepts_iff : ResolveRegionsStaticAccepts r ss se ↔
      ¬ r.IsWhole ∧ (se = [] ∨ ¬ r.EndsBy ss) ∧ (ss = [] ∨ r.startKey = [] ∨ r.startKey < se) := by
  simp [ResolveRegionsStaticAccepts, resolveRegionsStatic, hid, or_assoc, PdRegion.IsWhole, not_endsBy]

theorem queryRegionsAccepts_iff :
    QueryRegionsAccepts r ss se ↔ ¬ r.IsWhole ∧ ¬ r.EndsBy ss ∧ (r.startKey = [] ∨ r.startKey < se) := by
  simp [QueryRegionsAccepts, queryRegionsForRangeWithKeys, hid, PdRegion.IsWhole, not_endsBy]

theorem mem_queryRegionsForRange :
    r.id ∈ queryRegionsForRange [r] ss se ↔ QueryRegionsAccepts r ss se := by
  rw [queryRegionsForRange_eq, queryRegionsAccepts_iff hid]
  simp [queryRegionsForRangeWithKeys, hid, PdRegion.IsWhole, not_endsBy]

theorem resolveSpanAccepts_iff : ResolveSpanAccepts r ss se ↔ ss = [] ∧ se = [] ∨ r.IsWhole ∨
      (r.endKey = [] ∨ r.startKey < se) ∧ (ss = [] ∨ r.endKey ≠ [] ∧ ¬ r.EndsBy ss) := by
  have hlt : ss < r.endKey ↔ r.endKey ≠ [] ∧ ¬ r.EndsBy ss := by
    rw [not_endsBy]
    constructor
    · intro h
      exact ⟨(List.not_lt_nil ss <| · ▸ h), .inr h⟩
    · rintro ⟨hne, h⟩
      exact h.resolve_left hne
  rw [← hlt]
  simp [ResolveSpanAccepts, resolveSpan, hid, PdRegion.IsWhole]

end

/-! ## Where each filter is interval intersection -/

theorem PdRegion.empty_keys : (se = [] → ¬ r.startKey < se) ∧ (se ≠ [] → r.startKey = [] → r.startKey < se) ∧
    (ss = [] → ¬ r.EndsBy ss) ∧ (r.endKey = [] → ¬ r.EndsBy ss) := by
  refine ⟨?_, ?_, ?_, fun he h => h.1 he⟩
  · rintro rfl
    exact List.not_lt_nil _
  · intro hse hrs
    rw [hrs]; exact nil_lt_of_ne_nil hse
  · rintro rfl
    exact not_endsBy_nil

/-- `query_regions_for_range` drops the whole key space, and under a span with no end every region with a start. -/
theorem queryRegions_exact_iff (hid : r.id ≠ 0) (h : Proper r ss se) :
    (QueryRegionsAccepts r ss se ↔ Meets r ss se) ↔ ¬ r.IsWhole ∧ (se = [] → r.startKey = [] ∨ r.EndsBy ss) := by
  rw [queryRegionsAccepts_iff hid, meets_iff h]
  obtain ⟨hend, hstart, hnil, hopen⟩ := @empty_keys r ss se
  unfold PdRegion.IsWhole
  grind

/-- `resolve_regions_static` drops the whole key space and mixes up the two ends of the span: under one with no end the
region's end goes unread and its start is compared with the empty key, under one with no start its start goes unread. -/
theorem resolveRegionsStatic_exact_iff (hid : r.id ≠ 0) (h : Proper r ss se) :
    (ResolveRegionsStaticAccepts r ss se ↔ Meets r ss se) ↔ ¬ r.IsWhole ∧
      (se = [] → ss ≠ [] → (r.startKey = [] ↔ ¬ r.EndsBy ss)) ∧ (se ≠ [] → ss = [] → r.startKey < se) := by
  rw [resolveRegionsStaticAccepts_iff hid, meets_iff h]
  obtain ⟨hend, hstart, hnil, hopen⟩ := @empty_keys r ss se
  unfold PdRegion.IsWhole
  grind

/-- `resolve_span` compares the start of an unbounded region with nothing, and the start of the span with the empty end
of such a region. -/
theorem resolveSpan_exact_iff (hid : r.id ≠ 0) (h : Proper r ss se) :
    (ResolveSpanAccepts r ss se ↔ Meets r ss se) ↔ r.IsWhole ∨
      (se = [] → ss ≠ [] → r.EndsBy ss) ∧ (se ≠ [] → r.endKey = [] → (ss = [] ↔ r.startKey < se)) := by
  rw [resolveSpanAccepts_iff hid, meets_iff h]
  obtain ⟨hend, hstart, hnil, hopen⟩ := @empty_keys r ss se
  unfold PdRegion.IsWhole
  grind

/-- Every overlap test accepts the region exactly when it meets the subscription's span. -/
structure OverlapTestsExact (r : PdRegion) (sub : SpanSubscription) : Prop where
  matchRegion : ((PcrRegistry.mk [sub]).matchRegion r.startKey r.endKey).isSome ↔ Meets r sub.startKey sub.endKey
  resolveRegionsStatic : ResolveRegionsStaticAccepts r sub.startKey sub.endKey ↔ Meets r sub.startKey sub.endKey
  queryRegionsForRange : r.id ∈ queryRegionsForRange [r] sub.startKey sub.endKey ↔ Meets r sub.startKey sub.endKey
  queryRegionsForRangeWithKeys : QueryRegionsAccepts r sub.startKey sub.endKey ↔ Meets r sub.startKey sub.endKey
  resolveSpan : ResolveSpanAccepts r sub.startKey sub.endKey ↔ Meets r sub.startKey sub.endKey

/-- The ranges on which no test is misled by an unbounded side, one clause for each shape of span: with neither end,
with a start only, with an end only, and with both. -/
def SidesHandled (r : PdRegion) (ss se : Bytes) : Prop :=
  ¬ r.IsWhole ∧
  (se = [] → ss = [] → r.startKey = []) ∧
  (se = [] → ss ≠ [] → r.startKey ≠ [] ∧ r.EndsBy ss) ∧
  (se ≠ [] → ss = [] → r.startKey < se) ∧
  (se ≠ [] → ss ≠ [] → r.endKey ≠ [] ∨ se ≤ r.startKey)

theorem sidesHandled_iff : SidesHandled r ss se ↔
    (¬ r.IsWhole ∧ (se = [] → r.startKey = [] ∨ r.EndsBy ss)) ∧
    (¬ r.IsWhole ∧ (se = [] → ss ≠ [] → (r.startKey = [] ↔ ¬ r.EndsBy ss)) ∧
      (se ≠ [] → ss = [] → r.startKey < se)) ∧
    (r.IsWhole ∨ (se = [] → ss ≠ [] → r.EndsBy ss) ∧
      (se ≠ [] → r.endKey = [] → (ss = [] ↔ r.startKey < se))) := by
  obtain ⟨hend, hstart, hnil, hopen⟩ := @empty_keys r ss se
  unfold SidesHandled
  by_cases hw : r.IsWhole
  · simp [hw]
  grind

/-- **The overlap tests all mean interval intersection exactly on the ranges whose unbounded sides they handle.** -/
theorem overlapTestsExact_iff (r : PdRegion) (sub : SpanSubscription) (hid : r.id ≠ 0)
    (h : Proper r sub.startKey sub.endKey) :
    OverlapTestsExact r sub ↔ SidesHandled r sub.startKey sub.endKey := by
  rw [sidesHandled_iff, ← queryRegions_exact_iff hid h, ← resolveRegionsStatic_exact_iff hid h,
    ← resolveSpan_exact_iff hid h]
  constructor
  · intro ht
    exact ⟨ht.queryRegionsForRangeWithKeys, ht.resolveRegionsStatic, ht.resolveSpan⟩
  · rintro ⟨hq, hs, hr⟩
    refine ⟨?_, hs, (mem_queryRegionsForRange hid).trans hq, hq, hr⟩
    simpa using matchRegion_isSome ⟨[sub]⟩ r (by simpa using h)

theorem overlapTestsExact_inside : OverlapTestsExact ⟨2, [98], [99], 1, 1⟩ ⟨[97], [100], 0, 1024, 150⟩ :=
  (overlapTestsExact_iff ⟨2, [98], [99], 1, 1⟩ ⟨[97], [100], 0, 1024, 150⟩ (by decide) (by decide)).2 (by
    unfold SidesHandled PdRegion.IsWhole PdRegion.EndsBy; decide)

/-- The same region under the span from `a` on without an end: it lies inside, `resolve_span` leaves it out. -/
theorem not_overlapTestsExact_unbounded :
    Proper ⟨2, [98], [99], 1, 1⟩ [97] [] ∧ ¬ OverlapTestsExact ⟨2, [98], [99], 1, 1⟩ ⟨[97], [], 0, 1024, 150⟩ := by
  refine ⟨by decide, fun ht => ?_⟩
  have hmeets : Meets ⟨2, [98], [99], 1, 1⟩ [97] [] :=
    (meets_iff (by decide)).2 ⟨fun he => absurd he.2 (by decide), .inl rfl⟩
  exact absurd (ht.resolveSpan.2 hmeets) (by unfold ResolveSpanAccepts; decide)

end Span
end Tikv
