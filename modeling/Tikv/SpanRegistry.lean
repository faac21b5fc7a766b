import Tikv.LibBytes
import Tikv.LibMap
import Mathlib.Data.List.Dedup
/-!
# SpanRegistry — spans, their region workers and the reverse index (`span_ctl/registry.rs`, `resolver.rs`)

The registry keeps each table's span with its workers and, per region, the tables whose spans cover it.  The index is
written beside the spans by `upsertSpan`, `removeSpan`, `addRegionToSpan` and `onRegionSplit`; `reconcile` stops workers
without touching it.  The lemmas here say what each operation makes every table and every region read.
-/
namespace Tikv
namespace Span

open Lib Option Map

inductive WorkerState
  | initializing | subscribing | draining | stopped
deriving DecidableEq, Repr

structure RegionWorker where
  regionId : Nat
  state : WorkerState
deriving DecidableEq, Repr

inductive SpanState
  | initialized | subscribing | draining | removed
deriving DecidableEq, Repr

structure ReplicationSpan where
  tableId : Int
  startKey : Bytes
  endKey : Bytes
  checkpointTs : Nat
  workers : Map Nat RegionWorker
  state : SpanState
deriving DecidableEq

namespace ReplicationSpan

def new (tableId : Int) (startKey endKey : Bytes) : ReplicationSpan :=
  ⟨tableId, startKey, endKey, 0, ∅, .initialized⟩

def allRegionIds (span : ReplicationSpan) : List Nat :=
  (span.workers.entries.filter fun e => decide (e.2.state ≠ .stopped)).map Sigma.fst

def startWorker (span : ReplicationSpan) (regionId : Nat) : ReplicationSpan :=
  { span with workers := span.workers.insert regionId ⟨regionId, .initializing⟩ }

def drainWorker (span : ReplicationSpan) (regionId : Nat) : ReplicationSpan :=
  { span with workers := Map.modify regionId (fun w => { w with state := .draining }) span.workers }

def stopWorker (span : ReplicationSpan) (regionId : Nat) : ReplicationSpan :=
  { span with
    workers := AList.erase regionId (Map.modify regionId (fun w => { w with state := .stopped }) span.workers) }

end ReplicationSpan

abbrev RegionIndex := Map Nat (List Int)

def RegionIndex.push (idx : RegionIndex) (rid : Nat) (tableId : Int) : RegionIndex :=
  AList.insert rid ((idx.lookup rid).getD [] ++ [tableId]) idx

structure SpanRegistry where
  spans : Map Int ReplicationSpan
  regionIndex : RegionIndex
deriving DecidableEq

namespace SpanRegistry

def new : SpanRegistry := ⟨∅, ∅⟩

def upsertSpan (reg : SpanRegistry) (span : ReplicationSpan) : SpanRegistry where
  regionIndex := span.allRegionIds.foldl (fun idx rid => RegionIndex.push idx rid span.tableId) reg.regionIndex
  spans := reg.spans.insert span.tableId span

def dropTable (tableId : Int) (idx : RegionIndex) (rid : Nat) : RegionIndex :=
  match idx.lookup rid with
  | none => idx
  | some tids =>
    let tids := tids.filter fun t => decide (t ≠ tableId)
    if tids.isEmpty then AList.erase rid idx else AList.insert rid tids idx

def removeSpan (reg : SpanRegistry) (tableId : Int) : SpanRegistry × Option ReplicationSpan :=
  match reg.spans.lookup tableId with
  | none => (reg, none)
  | some span =>
    (⟨AList.erase tableId reg.spans, span.allRegionIds.foldl (dropTable tableId) reg.regionIndex⟩, some span)

def addRegionToSpan (reg : SpanRegistry) (tableId : Int) (regionId : Nat) : SpanRegistry where
  spans := Map.modify tableId (fun span => span.startWorker regionId) reg.spans
  regionIndex := RegionIndex.push reg.regionIndex regionId tableId

/-- A child has to be subscribed that has no worker, or the drained one of its parent. -/
def needsSubscribe (span : ReplicationSpan) (child : Nat) : Bool :=
  match span.workers.lookup child with
  | none => true
  | some w => decide (w.state = .draining)

def splitChild (tableId : Int) (acc : SpanRegistry × List Nat) (child : Nat) : SpanRegistry × List Nat :=
  let (reg, newToSubscribe) := acc
  let (spans, newToSubscribe) := match reg.spans.lookup tableId with
    | none => (reg.spans, newToSubscribe)
    | some s =>
      if needsSubscribe s child then
        let s := if (s.workers.lookup child).isSome then s.stopWorker child else s
        (reg.spans.insert tableId (s.startWorker child), newToSubscribe ++ [child])
      else (reg.spans, newToSubscribe)
  (⟨spans, RegionIndex.push reg.regionIndex child tableId⟩, newToSubscribe)

def splitTable (parent : Nat) (children : List Nat) (acc : SpanRegistry × List Nat) (tableId : Int) :
    SpanRegistry × List Nat :=
  let (reg, newToSubscribe) := acc
  let spans := Map.modify tableId (fun s => s.drainWorker parent) reg.spans
  let regionIndex := Map.modify parent (fun tids => tids.filter fun t => decide (t ≠ tableId)) reg.regionIndex
  children.foldl (splitChild tableId) (⟨spans, regionIndex⟩, newToSubscribe)

def onRegionSplit (reg : SpanRegistry) (parent : Nat) (children : List Nat) : SpanRegistry × List Nat :=
  let coveringTableIds := (reg.regionIndex.lookup parent).getD []
  let (reg, newToSubscribe) := coveringTableIds.foldl (splitTable parent children) (reg, [])
  let regionIndex := if ((reg.regionIndex.lookup parent).getD []).isEmpty then AList.erase parent reg.regionIndex
    else reg.regionIndex
  (⟨reg.spans, regionIndex⟩, newToSubscribe)

structure ReconcileResult where
  toAdd : List (Nat × Bytes × Bytes)
  toRemove : List Nat

def tracked (reg : SpanRegistry) : List Nat := (reg.spans.entries.flatMap fun e => e.2.allRegionIds).dedup

def reconcile (reg : SpanRegistry) (pdRegions : List (Nat × Bytes × Bytes)) : SpanRegistry × ReconcileResult :=
  let pdSet := pdRegions.map (·.1)
  let toAdd := pdRegions.filter fun r => decide (r.1 ∉ reg.tracked)
  let toRemove := reg.tracked.filter fun rid => decide (rid ∉ pdSet)
  (⟨toRemove.foldl (fun spans rid => Map.mapVal (·.stopWorker rid) spans) reg.spans, reg.regionIndex⟩,
    ⟨toAdd, toRemove⟩)

/-! ## What tables and regions read -/

def worker (reg : SpanRegistry) (t : Int) (r : Nat) : Option RegionWorker :=
  (reg.spans.lookup t).bind (·.workers.lookup r)

def live (w : Option RegionWorker) : Bool := w.any fun w => decide (w.state ≠ .stopped)

def covering (reg : SpanRegistry) (r : Nat) : List Int := (reg.regionIndex.lookup r).getD []

def indexed (reg : SpanRegistry) (r : Nat) (t : Int) : Nat := (reg.covering r).count t

def NoEmpty (idx : RegionIndex) : Prop := ∀ r, idx.lookup r ≠ some []

variable {reg : SpanRegistry} {span : ReplicationSpan} {idx : RegionIndex} {acc : SpanRegistry × List Nat}
  {cs : List Nat} {t t' : Int} {p c rid r r' : Nat}

theorem mem_allRegionIds : r ∈ span.allRegionIds ↔ live (span.workers.lookup r) = true := by
  unfold ReplicationSpan.allRegionIds live
  rw [List.mem_map]
  constructor
  · rintro ⟨⟨r', w⟩, he, rfl⟩
    rw [List.mem_filter, mem_entries] at he
    rw [he.1]; exact he.2
  · intro h
    rw [any_eq_true] at h
    obtain ⟨w, hw, hs⟩ := h
    exact ⟨⟨r, w⟩, List.mem_filter.2 ⟨mem_entries.2 hw, hs⟩, rfl⟩

theorem nodup_allRegionIds (span : ReplicationSpan) : span.allRegionIds.Nodup :=
  span.workers.keys_nodup.sublist (List.Sublist.map Sigma.fst List.filter_sublist)

theorem lookup_push :
    (RegionIndex.push idx rid t).lookup r = if r = rid then some ((idx.lookup r).getD [] ++ [t]) else idx.lookup r := by
  unfold RegionIndex.push
  rw [lookup_insert]
  split
  · rename_i h; rw [h]
  · rfl

theorem count_one : [t].count t' = if t' = t then 1 else 0 := by
  simp [List.count_singleton, @eq_comm _ t]

theorem count_push : (((RegionIndex.push idx rid t).lookup r).getD []).count t' =
      ((idx.lookup r).getD []).count t' + if r = rid ∧ t' = t then 1 else 0 := by
  rw [lookup_push]
  by_cases hr : r = rid
  · simp [hr, count_one]
  · simp [hr]

/-! ### `upsert_span` -/

theorem upsertSpan_worker :
    (reg.upsertSpan span).worker t r = if t = span.tableId then span.workers.lookup r else reg.worker t r := by
  unfold worker upsertSpan
  rw [lookup_insert]
  split <;> rfl

theorem upsertSpan_lookup : (reg.upsertSpan span).regionIndex.lookup r =
      if r ∈ span.allRegionIds then some (reg.covering r ++ [span.tableId]) else reg.regionIndex.lookup r :=
  foldl_view_nodup (fun idx rid => RegionIndex.push idx rid span.tableId) (fun idx r => idx.lookup r)
    (fun _ tids => some (tids.getD [] ++ [span.tableId])) (fun _ _ _ => lookup_push)
    (nodup_allRegionIds span) reg.regionIndex r

theorem upsertSpan_indexed : (reg.upsertSpan span).indexed r t =
      reg.indexed r t + if t = span.tableId ∧ live (span.workers.lookup r) = true then 1 else 0 := by
  unfold indexed
  simp only [← mem_allRegionIds]
  rw [covering, upsertSpan_lookup]
  by_cases hr : r ∈ span.allRegionIds
  · simp [hr, count_one]
  · simp [hr, covering]

theorem upsertSpan_noEmpty (h : NoEmpty reg.regionIndex) : NoEmpty (reg.upsertSpan span).regionIndex := by
  intro r
  rw [upsertSpan_lookup]
  split
  · simp
  · exact h r

/-! ### `remove_span` -/

theorem lookup_dropTable : (dropTable t idx rid).lookup r =
      if r = rid then ((idx.lookup r).map fun tids => tids.filter fun t' => decide (t' ≠ t)).filter (· ≠ [])
      else idx.lookup r := by
  unfold dropTable
  by_cases hr : r = rid
  · rw [if_pos hr, ← hr]
    cases hl : idx.lookup r with
    | none => simpa using hl
    | some tids =>
      dsimp only
      rw [map_some]
      by_cases he : (tids.filter fun t' => decide (t' ≠ t)) = []
      · rw [he, if_pos List.isEmpty_nil, AList.lookup_erase]; rfl
      · rw [if_neg (by simpa using he), AList.lookup_insert, filter_some, if_pos (by simpa using he)]
  · rw [if_neg hr]
    cases hl : idx.lookup rid with
    | none => rfl
    | some tids =>
      dsimp only
      split
      · exact AList.lookup_erase_ne hr
      · exact AList.lookup_insert_ne hr

theorem removeSpan_worker : (reg.removeSpan t).1.worker t' r = if t' = t then none else reg.worker t' r := by
  unfold removeSpan worker
  cases hl : reg.spans.lookup t with
  | none =>
    dsimp only
    split
    · rename_i h; rw [h, hl]; rfl
    · rfl
  | some span =>
    rw [lookup_erase]
    split <;> rfl

theorem removeSpan_lookup : (reg.removeSpan t).1.regionIndex.lookup r = if live (reg.worker t r) = true then
        ((reg.regionIndex.lookup r).map fun tids => tids.filter fun t' => decide (t' ≠ t)).filter (· ≠ [])
      else reg.regionIndex.lookup r := by
  unfold removeSpan worker
  cases hl : reg.spans.lookup t with
  | none => rfl
  | some span =>
    have hfold := foldl_view_nodup (dropTable t) (fun idx r => idx.lookup r)
      (fun _ tids => (tids.map fun tids => tids.filter fun t' => decide (t' ≠ t)).filter (· ≠ []))
      (fun _ _ _ => lookup_dropTable) (nodup_allRegionIds span) reg.regionIndex r
    dsimp only [bind_some] at hfold ⊢
    simp only [← mem_allRegionIds]
    exact hfold

theorem count_filter_ne (tids : List Int) :
    (tids.filter fun x => decide (x ≠ t)).count t' = if t' = t then 0 else tids.count t' := by
  by_cases ht : t' = t
  · rw [if_pos ht, ht]
    exact List.count_eq_zero.2 (by simp)
  rw [if_neg ht]
  exact List.count_filter (by simpa using ht)

theorem removeSpan_indexed :
    (reg.removeSpan t).1.indexed r t' = if t' = t ∧ live (reg.worker t r) = true then 0 else reg.indexed r t' := by
  unfold indexed covering
  rw [removeSpan_lookup]
  by_cases hw : live (reg.worker t r) = true
  · rw [if_pos hw]
    have hcount : ∀ tids : List Int, (((some tids).map fun tids => tids.filter fun t' => decide (t' ≠ t)).filter
        (· ≠ [])).getD [] = tids.filter fun t' => decide (t' ≠ t) := by
      intro tids
      rw [map_some, filter_some]
      split
      · rfl
      rename_i he
      exact (not_not.1 (mt decide_eq_true he)).symm
    cases hl : reg.regionIndex.lookup r with
    | none => simp
    | some tids =>
      rw [hcount, count_filter_ne]
      simp [hw]
  · rw [if_neg hw, if_neg (fun h => hw h.2)]

theorem removeSpan_noEmpty (h : NoEmpty reg.regionIndex) : NoEmpty (reg.removeSpan t).1.regionIndex := by
  intro r
  rw [removeSpan_lookup]
  split
  · intro he
    have := filter_eq_some_iff.1 he
    simp at this
  · exact h r

/-! ### `add_region_to_span` -/

theorem addRegionToSpan_worker : (reg.addRegionToSpan t r).worker t' r' =
      if t' = t ∧ r' = r ∧ (reg.spans.lookup t).isSome then some ⟨r, .initializing⟩ else reg.worker t' r' := by
  unfold worker addRegionToSpan
  rw [lookup_modify]
  by_cases ht : t' = t
  · rw [ht]
    cases reg.spans.lookup t with
    | none => simp
    | some span =>
      simp [ReplicationSpan.startWorker, lookup_insert]
  · rw [if_neg ht, if_neg (fun h => ht h.1)]

theorem addRegionToSpan_indexed :
    (reg.addRegionToSpan t r).indexed r' t' = reg.indexed r' t' + if r' = r ∧ t' = t then 1 else 0 :=
  count_push

theorem addRegionToSpan_noEmpty (h : NoEmpty reg.regionIndex) : NoEmpty (reg.addRegionToSpan t r).regionIndex := by
  intro r'
  refine ne_of_eq_of_ne lookup_push ?_
  split
  · simp
  · exact h r'

/-! ### `on_region_split` -/

def reads (reg : SpanRegistry) (t : Int) (r : Nat) : Option (Option RegionWorker) × Nat :=
  ((reg.spans.lookup t).map (·.workers.lookup r), reg.indexed r t)

def subscribed (child : Nat) (w : Option RegionWorker) : Option RegionWorker :=
  match w with
  | none => some ⟨child, .initializing⟩
  | some w => if w.state = .draining then some ⟨child, .initializing⟩ else some w

theorem subscribed_subscribed (child : Nat) (w : Option RegionWorker) :
    subscribed child (subscribed child w) = subscribed child w := by
  cases w with
  | none => rfl
  | some w =>
    by_cases hw : w.state = .draining <;> simp [subscribed, hw]

def childRead (child : Nat) (v : Option (Option RegionWorker) × Nat) : Option (Option RegionWorker) × Nat :=
  (v.1.map (subscribed child), v.2 + 1)

theorem childRead_iterate (child : Nat) (v : Option (Option RegionWorker) × Nat) : ∀ n : Nat,
    (childRead child)^[n] v = (if n = 0 then v.1 else v.1.map (subscribed child), v.2 + n)
  | 0 => rfl
  | n + 1 => by
    rw [Function.iterate_succ_apply', childRead_iterate child v n]
    unfold childRead
    by_cases hn : n = 0
    · simp [hn]
    have hidem : subscribed child ∘ subscribed child = subscribed child :=
      funext (subscribed_subscribed child)
    rw [if_neg hn, map_map, hidem]; rfl

theorem startWorker_lookup :
    (span.startWorker r).workers.lookup r' = if r' = r then some ⟨r, .initializing⟩ else span.workers.lookup r' :=
  lookup_insert

theorem drainWorker_lookup : (span.drainWorker r).workers.lookup r' =
    if r' = r then (span.workers.lookup r').map fun w => { w with state := .draining } else span.workers.lookup r' :=
  lookup_modify

theorem stopWorker_lookup :
    (span.stopWorker r).workers.lookup r' = if r' = r then none else span.workers.lookup r' := by
  unfold ReplicationSpan.stopWorker
  rw [lookup_erase]
  split
  · rfl
  rename_i h
  rw [lookup_modify, if_neg h]

theorem needsSubscribe_false (h : ¬ needsSubscribe span c = true) :
    subscribed c (span.workers.lookup c) = span.workers.lookup c := by
  unfold needsSubscribe at h
  cases hl : span.workers.lookup c with
  | none => rw [hl] at h; exact absurd rfl h
  | some w =>
    rw [hl] at h
    exact if_neg fun hd => h (decide_eq_true hd)

theorem needsSubscribe_true (h : needsSubscribe span c = true) :
    subscribed c (span.workers.lookup c) = some ⟨c, .initializing⟩ := by
  unfold needsSubscribe at h
  cases hl : span.workers.lookup c with
  | none => rfl
  | some w =>
    rw [hl] at h
    exact if_pos (of_decide_eq_true h)

theorem splitChild_span : ((splitChild t acc c).1.spans.lookup t').map (·.workers.lookup r) =
      if t' = t ∧ r = c then ((acc.1.spans.lookup t').map (·.workers.lookup r)).map (subscribed c)
      else (acc.1.spans.lookup t').map (·.workers.lookup r) := by
  obtain ⟨reg, new⟩ := acc
  unfold splitChild
  dsimp only
  cases hl : reg.spans.lookup t with
  | none =>
    dsimp only
    split
    · rename_i h
      rw [h.1, hl]; rfl
    · rfl
  | some span =>
    dsimp only
    by_cases hn : needsSubscribe span c = true
    · rw [if_pos hn, lookup_insert]
      by_cases ht : t' = t
      · rw [if_pos ht, ht, hl]
        simp only [map_some, startWorker_lookup, true_and]
        by_cases hr : r = c
        · rw [if_pos hr, if_pos hr, hr, needsSubscribe_true hn]
        rw [if_neg hr]
        split
        · rw [stopWorker_lookup, if_neg hr]
        · rfl
      · rw [if_neg ht, if_neg (fun h => ht h.1)]
    · rw [if_neg hn]
      split
      · rename_i h
        rw [h.1, h.2, hl, map_some, map_some, needsSubscribe_false hn]
      · rfl

theorem splitChild_reads : (splitChild t acc c).1.reads t' r =
      if t' = t ∧ r = c then childRead r (acc.1.reads t' r) else acc.1.reads t' r := by
  have hidx : (splitChild t acc c).1.indexed r t' = acc.1.indexed r t' + if r = c ∧ t' = t then 1 else 0 :=
    count_push
  unfold reads
  rw [splitChild_span, hidx]
  by_cases h : t' = t ∧ r = c
  · rw [if_pos h, if_pos h, if_pos h.symm, h.2]; rfl
  · rw [if_neg h, if_neg h, if_neg (fun h' => h h'.symm)]; rfl

theorem splitChildren_reads : (cs.foldl (splitChild t) acc).1.reads t' r =
      if t' = t then (childRead r)^[cs.count r] (acc.1.reads t' r) else acc.1.reads t' r := by
  have hfold := foldl_view (splitChild t) (fun acc r => acc.1.reads t' r) (fun r v => if t' = t then childRead r v else v)
    (fun acc c r => by
      rw [splitChild_reads]
      by_cases ht : t' = t <;> simp [ht]) cs acc r
  rw [hfold]
  by_cases ht : t' = t
  · simp [ht]
  simp only [ht]
  exact Function.iterate_id _ ▸ rfl

def splitRead (parent : Nat) (children : List Nat) (r : Nat) (v : Option (Option RegionWorker) × Nat) :
    Option (Option RegionWorker) × Nat :=
  (childRead r)^[children.count r]
    (if r = parent then (v.1.map (Option.map fun w => { w with state := .draining }), 0) else v)

def drainTable (parent : Nat) (reg : SpanRegistry) (t : Int) : SpanRegistry where
  spans := Map.modify t (fun s => s.drainWorker parent) reg.spans
  regionIndex := Map.modify parent (fun tids => tids.filter fun t' => decide (t' ≠ t)) reg.regionIndex

theorem drainTable_indexed : (drainTable p reg t).indexed r t' = if t' = t ∧ r = p then 0 else reg.indexed r t' := by
  unfold indexed covering drainTable
  rw [lookup_modify]
  by_cases hr : r = p
  · rw [if_pos hr]
    cases reg.regionIndex.lookup r with
    | none => simp
    | some tids =>
      rw [map_some, getD_some, count_filter_ne]
      simp [hr]
  · rw [if_neg hr, if_neg (fun h => hr h.2)]

theorem drainTable_reads : (drainTable p reg t).reads t' r = if t' = t ∧ r = p then
        ((reg.reads t' r).1.map (Option.map fun w => { w with state := .draining }), 0)
      else reg.reads t' r := by
  have hspan : ((drainTable p reg t).spans.lookup t').map (·.workers.lookup r) = if t' = t ∧ r = p then
      (reg.reads t' r).1.map (Option.map fun w => { w with state := .draining }) else (reg.reads t' r).1 := by
    unfold drainTable reads
    rw [lookup_modify]
    by_cases ht : t' = t
    · rw [if_pos ht]
      cases reg.spans.lookup t' with
      | none => simp
      | some span => simp only [map_some, drainWorker_lookup, ht, true_and]; split <;> rfl
    · rw [if_neg ht, if_neg (fun h => ht h.1)]
  show (_, (drainTable p reg t).indexed r t') = _
  rw [hspan, drainTable_indexed]
  split <;> rfl

theorem splitTable_reads :
    (splitTable p cs acc t).1.reads t' r = if t' = t then splitRead p cs r (acc.1.reads t' r) else acc.1.reads t' r := by
  obtain ⟨reg, new⟩ := acc
  unfold splitRead
  have hsplit : splitTable p cs (reg, new) t = cs.foldl (splitChild t) (drainTable p reg t, new) := rfl
  rw [hsplit, splitChildren_reads, drainTable_reads]
  by_cases ht : t' = t <;> simp [ht]

theorem onRegionSplit_reads (hnd : (reg.covering p).Nodup) : (reg.onRegionSplit p cs).1.reads t r =
      if t ∈ reg.covering p then splitRead p cs r (reg.reads t r) else reg.reads t r := by
  have hfold := foldl_view_nodup (splitTable p cs) (fun acc t r => acc.1.reads t r) (fun _ v r => splitRead p cs r (v r))
    (fun acc t t' => by
      funext r
      rw [splitTable_reads]
      split <;> rfl) hnd (reg, []) t
  have hfold := congrFun hfold r
  -- dropping the parent's empty entry changes nothing that is read
  have hend : (reg.onRegionSplit p cs).1.reads t r =
      ((reg.covering p).foldl (splitTable p cs) (reg, [])).1.reads t r := by
    generalize hacc : (reg.covering p).foldl (splitTable p cs) (reg, []) = acc
    unfold covering at hacc
    unfold onRegionSplit reads indexed covering
    dsimp only
    rw [hacc]
    split
    · rename_i he
      rw [lookup_erase]
      by_cases hr : r = p
      · rw [List.isEmpty_iff] at he
        rw [if_pos hr, hr, he]; rfl
      · rw [if_neg hr]
    · rfl
  rw [hend, hfold]
  split <;> rfl

/-- Only the parent's entry may be empty while a split runs. -/
def NoEmptyBut (p : Nat) (idx : RegionIndex) : Prop := ∀ r, r ≠ p → idx.lookup r ≠ some []

theorem splitChildren_noEmptyBut : ∀ (cs : List Nat) (acc : SpanRegistry × List Nat),
    NoEmptyBut p acc.1.regionIndex → NoEmptyBut p (cs.foldl (splitChild t) acc).1.regionIndex
  | [], _, h => h
  | c :: cs, acc, h => by
    refine splitChildren_noEmptyBut cs _ fun r hr => ?_
    have hpush : (splitChild t acc c).1.regionIndex = RegionIndex.push acc.1.regionIndex c t := rfl
    rw [hpush, lookup_push]
    split
    · simp
    · exact h r hr

theorem splitTables_noEmptyBut (p : Nat) (cs : List Nat) : ∀ (ts : List Int) (acc : SpanRegistry × List Nat),
    NoEmptyBut p acc.1.regionIndex → NoEmptyBut p (ts.foldl (splitTable p cs) acc).1.regionIndex
  | [], _, h => h
  | t :: ts, acc, h => by
    refine splitTables_noEmptyBut p cs ts _ (splitChildren_noEmptyBut cs (drainTable p acc.1 t, acc.2) ?_)
    intro r hr
    unfold drainTable
    rw [lookup_modify, if_neg hr]
    exact h r hr

theorem onRegionSplit_noEmpty (h : NoEmpty reg.regionIndex) : NoEmpty (reg.onRegionSplit p cs).1.regionIndex := by
  have hbut := splitTables_noEmptyBut p cs (reg.covering p) (reg, []) fun r _ => h r
  intro r
  unfold onRegionSplit
  dsimp only
  generalize hacc : (reg.covering p).foldl (splitTable p cs) (reg, []) = acc at hbut
  unfold covering at hacc
  rw [hacc]
  split
  · rw [lookup_erase]
    split
    · exact nofun
    rename_i hr
    exact hbut r hr
  · rename_i he
    by_cases hr : r = p
    · intro hl
      rw [← hr, hl] at he
      exact he rfl
    · exact hbut r hr

/-! ### `reconcile` -/

theorem mem_tracked : r ∈ reg.tracked ↔ ∃ t, live (reg.worker t r) = true := by
  unfold tracked worker
  rw [List.mem_dedup, List.mem_flatMap]
  constructor
  · rintro ⟨⟨t, span⟩, he, hr⟩
    refine ⟨t, ?_⟩
    rw [mem_entries.1 he]
    exact mem_allRegionIds.1 hr
  · rintro ⟨t, hl⟩
    cases hs : reg.spans.lookup t with
    | none => rw [hs] at hl; exact nomatch hl
    | some span =>
      rw [hs] at hl
      exact ⟨⟨t, span⟩, mem_entries.2 hs, mem_allRegionIds.2 hl⟩

theorem stopAll_worker (spans : Map Int ReplicationSpan) (rids : List Nat) :
    ((rids.foldl (fun spans rid => mapVal (·.stopWorker rid) spans) spans).lookup t).bind (·.workers.lookup r) =
      if r ∈ rids then none else (spans.lookup t).bind (·.workers.lookup r) := by
  have hfold := foldl_view (fun (spans : Map Int ReplicationSpan) rid => mapVal (·.stopWorker rid) spans)
    (fun spans r => (spans.lookup t).bind (·.workers.lookup r)) (fun _ _ => none)
    (fun spans rid r => by
      rw [lookup_mapVal]
      cases spans.lookup t with
      | none => simp
      | some span => rw [map_some, bind_some, stopWorker_lookup]; rfl) rids spans r
  rw [hfold]
  by_cases hr : r ∈ rids
  · rw [if_pos hr]
    obtain ⟨n, hn⟩ := Nat.exists_eq_succ_of_ne_zero (List.count_pos_iff.2 hr).ne'
    rw [hn, Function.iterate_succ_apply']
  · rw [if_neg hr, List.count_eq_zero.2 hr]; rfl

theorem reconcile_worker (pd : List (Nat × Bytes × Bytes)) : (reg.reconcile pd).1.worker t r =
      if r ∈ reg.tracked ∧ r ∉ pd.map (·.1) then none else reg.worker t r := by
  refine (stopAll_worker _ _).trans ?_
  simp only [List.mem_filter, decide_eq_true_eq]
  rfl

end SpanRegistry
end Span
end Tikv
