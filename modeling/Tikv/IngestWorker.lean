import Tikv.IngestFlush
/-!
# IngestWorker — one ingest worker's loop (`run_ingest_worker` of `task.rs`)

A worker owns a batcher and shares the engine.  It takes one event at a time, or flushes when none came for a while; the
answer of every flush is dropped.  `Absorbs` says what a stretch of its work did when every flush succeeded: what it was
given and what it had is now partly in the engine, the rest still buffered in order.
-/
namespace Tikv
namespace Ingest

open List MvccKeyValue

open Lib (Bytes Patch)

structure LoopEnv where
  now : Nat
  boundary : FlushEnv
  after : FlushEnv

structure LoopEnv.Works (t : LoopEnv) : Prop where
  boundary : t.boundary.Works
  after : t.after.Works

def flushQuiet (env : FlushEnv) (b : SstBatcher) (e : Engine) : SstBatcher × Engine :=
  ((b.flush env e).1, (b.flush env e).2.1)

theorem flushQuiet_kvBuffer (env : FlushEnv) (b : SstBatcher) (e : Engine) : (flushQuiet env b e).1.kvBuffer = [] := by
  unfold flushQuiet SstBatcher.flush
  split
  · rename_i h
    simp only [Bool.and_eq_true, List.isEmpty_iff] at h
    exact h.1
  · split <;> rfl

/-- A pair as it is buffered: no column family means "default", and the operation is not looked at. -/
def ofPcrKv (kv : PcrKv) : MvccKeyValue where
  key := kv.key
  value := kv.value
  cf := if kv.cf = .unset then .default else kv.cf

def onKvBatch (flushIntervalMs : Nat) (t : LoopEnv) (regionId : Nat) (kvs : List PcrKv) (b : SstBatcher) (e : Engine) :
    SstBatcher × Engine :=
  let s := if b.currentRegionId != regionId && b.shouldFlush .rangeBoundary then flushQuiet t.boundary b e else (b, e)
  let b := { s.1 with currentRegionId := regionId }
  let b := kvs.foldl (fun b kv => b.addKv (ofPcrKv kv)) b
  if b.shouldFlush .bufferFull || (decide (0 < flushIntervalMs) &&
      decide (flushIntervalMs ≤ b.elapsedSinceLastFlush t.now)) then flushQuiet t.after b s.2 else (b, s.2)

def onDeleteRange (t : LoopEnv) (regionId : Nat) (startKey endKey : Bytes) (ts : Nat) (b : SstBatcher) (e : Engine) :
    SstBatcher × Engine :=
  let b := { b with currentRegionId := regionId }
  let b := b.addDeleteRange startKey endKey ts
  if b.maxRangeBufferSize ≤ b.rangeBufferSize then flushQuiet t.after b e else (b, e)

def workerRecv (flushIntervalMs : Nat) (t : LoopEnv) (ev : PcrEventWithMeta) (b : SstBatcher) (e : Engine) :
    SstBatcher × Engine :=
  match ev.event.event with
  | .kvBatch kvs => onKvBatch flushIntervalMs t ev.regionId kvs b e
  | .deleteRange startKey endKey ts => onDeleteRange t ev.regionId startKey endKey ts b e
  | _ => (b, e)

/-- **The idle timeout, and the end of a closed channel**: range deletes alone are not flushed. -/
def workerIdle (env : FlushEnv) (b : SstBatcher) (e : Engine) : SstBatcher × Engine :=
  if 0 < b.pendingKvs then flushQuiet env b e else (b, e)

/-! ## What an event brings -/

def eventKvs (ev : PcrEventWithMeta) : List MvccKeyValue :=
  match ev.event.event with
  | .kvBatch kvs => kvs.map ofPcrKv
  | _ => []

def eventRanges (ev : PcrEventWithMeta) : List RangeDelete :=
  match ev.event.event with
  | .deleteRange startKey endKey ts => [⟨startKey, endKey, ts⟩]
  | _ => []

def eventPatches (ev : PcrEventWithMeta) : List EnginePatch :=
  (eventKvs ev).map MvccKeyValue.patch ++ (eventRanges ev).map RangeDelete.patch

/-! ## Stretches of work -/

/-- **From `b` and `e`, given `kvs` and `rs`, to `b'` and `e'`**: a front of the pairs and of the range deletes has been
applied, each of them once, and what is left is buffered in order. -/
def Absorbs (b : SstBatcher) (e : Engine) (kvs : List MvccKeyValue) (rs : List RangeDelete) (b' : SstBatcher)
    (e' : Engine) : Prop :=
  ∃ (fk : List MvccKeyValue) (fr : List RangeDelete) (fl : List EnginePatch),
    b.kvBuffer ++ kvs = fk ++ b'.kvBuffer ∧ b.rangeBuffer ++ rs = fr ++ b'.rangeBuffer ∧
      fl.Perm (fk.map MvccKeyValue.patch ++ fr.map RangeDelete.patch) ∧ e' = (Patch.seqAll fl).apply e

variable {b b' : SstBatcher} {kvs : List MvccKeyValue} {rs : List RangeDelete} {e e' : Engine}

theorem append_append_perm {α : Type} (a b c d : List α) : (a ++ b ++ (c ++ d)).Perm (a ++ c ++ (b ++ d)) := by
  rw [append_assoc, append_assoc]
  refine List.Perm.append_left a ?_
  rw [← append_assoc, ← append_assoc]
  exact List.Perm.append_right d perm_append_comm

theorem Absorbs.of_buffered (hk : b'.kvBuffer = b.kvBuffer ++ kvs) (hr : b'.rangeBuffer = b.rangeBuffer ++ rs) :
    Absorbs b e kvs rs b' e :=
  ⟨[], [], [], by rw [hk]; rfl, by rw [hr]; rfl, List.Perm.refl _, rfl⟩

theorem Absorbs.trans {b'' : SstBatcher} {e'' : Engine} {kvs' : List MvccKeyValue}
    {rs' : List RangeDelete} (h : Absorbs b e kvs rs b' e') (h' : Absorbs b' e' kvs' rs' b'' e'') :
    Absorbs b e (kvs ++ kvs') (rs ++ rs') b'' e'' := by
  obtain ⟨fk, fr, fl, hk, hr, hp, he⟩ := h
  obtain ⟨fk', fr', fl', hk', hr', hp', he'⟩ := h'
  refine ⟨fk ++ fk', fr ++ fr', fl ++ fl', ?_, ?_, ?_, ?_⟩
  · rw [← append_assoc, hk, append_assoc, hk', append_assoc]
  · rw [← append_assoc, hr, append_assoc, hr', append_assoc]
  · rw [map_append, map_append]
    exact (hp.append hp').trans (append_append_perm _ _ _ _)
  · rw [he', he, Patch.seqAll_append, Patch.apply_seq]

theorem Absorbs.nodup_rest {rest : List MvccKeyValue} (h : Absorbs b e kvs rs b' e')
    (hnd : ((b.kvBuffer ++ (kvs ++ rest)).map slot).Nodup) : ((b'.kvBuffer ++ rest).map slot).Nodup := by
  obtain ⟨fk, -, -, hk, -⟩ := h
  rw [← append_assoc, hk, append_assoc, map_append] at hnd
  exact List.Nodup.of_append_right hnd

theorem flushQuiet_absorbs {env : FlushEnv} (henv : env.Works) (hnd : (b.kvBuffer.map slot).Nodup) :
    Absorbs b e [] [] (flushQuiet env b e).1 (flushQuiet env b e).2 ∧ (flushQuiet env b e).1.kvBuffer = [] := by
  obtain ⟨b', e', r, h⟩ := SstBatcher.flush_of_works henv hnd e
  obtain ⟨-, he, hk, hr⟩ := SstBatcher.flush_ok henv.deleteRangesCf h
  unfold flushQuiet
  rw [h]
  refine ⟨⟨b.kvBuffer, b.rangeBuffer, b.patches, ?_, ?_, List.Perm.refl _, he⟩, hk⟩
  · rw [hk]
  · rw [hr]

theorem foldl_addKv : ∀ (kvs : List PcrKv) (b : SstBatcher), ∃ currentStartKey currentEndKey,
    kvs.foldl (fun b kv => b.addKv (ofPcrKv kv)) b = { b with
      kvBuffer := b.kvBuffer ++ kvs.map ofPcrKv
      kvBufferSize := b.kvBufferSize + (kvs.map fun kv => kv.key.length + kv.value.length).sum
      currentStartKey, currentEndKey }
  | [], b => ⟨b.currentStartKey, b.currentEndKey, by simp⟩
  | kv :: kvs, b => by
    obtain ⟨start, stop, h⟩ := foldl_addKv kvs (b.addKv (ofPcrKv kv))
    refine ⟨start, stop, ?_⟩
    rw [foldl_cons, h, map_cons, append_cons, map_cons, sum_cons, ← add_assoc]
    rfl

variable {t : LoopEnv} {flushIntervalMs regionId : Nat}

theorem onKvBatch_absorbs (ht : t.Works) {kvs : List PcrKv} (hnd : ((b.kvBuffer ++ kvs.map ofPcrKv).map slot).Nodup) :
    Absorbs b e (kvs.map ofPcrKv) [] (onKvBatch flushIntervalMs t regionId kvs b e).1
      (onKvBatch flushIntervalMs t regionId kvs b e).2 := by
  unfold onKvBatch
  -- the flush at a region boundary leaves a front of the buffer
  have hbound : ∀ s : SstBatcher × Engine, s = (if b.currentRegionId != regionId && b.shouldFlush .rangeBoundary then
      flushQuiet t.boundary b e else (b, e)) →
      Absorbs b e [] [] s.1 s.2 ∧ ((s.1.kvBuffer ++ kvs.map ofPcrKv).map slot).Nodup := by
    intro s hs
    rw [map_append] at hnd
    split at hs
    · obtain ⟨ha, hk⟩ := flushQuiet_absorbs ht.boundary (List.Nodup.of_append_left hnd)
      rw [hs, hk]
      exact ⟨ha, List.Nodup.of_append_right hnd⟩
    · rw [hs]
      exact ⟨Absorbs.of_buffered (by simp) (by simp), by rw [map_append]; exact hnd⟩
  generalize hs : (if b.currentRegionId != regionId && b.shouldFlush .rangeBoundary then
      flushQuiet t.boundary b e else (b, e)) = s
  obtain ⟨ha, hnd'⟩ := hbound s hs.symm
  dsimp only
  obtain ⟨_, _, hfold⟩ := foldl_addKv kvs { s.1 with currentRegionId := regionId }
  generalize kvs.foldl (fun b kv => b.addKv (ofPcrKv kv)) { s.1 with currentRegionId := regionId } = b₁ at hfold
  have hk : b₁.kvBuffer = s.1.kvBuffer ++ kvs.map ofPcrKv := by rw [hfold]
  have hbuf : Absorbs s.1 s.2 (kvs.map ofPcrKv) [] b₁ s.2 := Absorbs.of_buffered hk (by rw [hfold, append_nil])
  have hadd : Absorbs b e (kvs.map ofPcrKv) [] b₁ s.2 := by simpa using ha.trans hbuf
  split
  · have := hadd.trans (flushQuiet_absorbs ht.after (by rw [hk]; exact hnd')).1
    simpa using this
  · exact hadd

theorem onDeleteRange_absorbs (ht : t.Works) {ts : Nat} {startKey endKey : Bytes} (hnd : (b.kvBuffer.map slot).Nodup) :
    Absorbs b e [] [⟨startKey, endKey, ts⟩] (onDeleteRange t regionId startKey endKey ts b e).1
      (onDeleteRange t regionId startKey endKey ts b e).2 := by
  unfold onDeleteRange
  dsimp only
  generalize hb : ({ b with currentRegionId := regionId }.addDeleteRange startKey endKey ts) = b₁
  have hk : b₁.kvBuffer = b.kvBuffer := by rw [← hb]; rfl
  have hr : b₁.rangeBuffer = b.rangeBuffer ++ [⟨startKey, endKey, ts⟩] := by rw [← hb]; rfl
  have hadd : Absorbs b e [] [⟨startKey, endKey, ts⟩] b₁ e := Absorbs.of_buffered (by rw [hk, append_nil]) hr
  split
  · have := hadd.trans (flushQuiet_absorbs ht.after (by rw [hk]; exact hnd)).1
    simpa using this
  · exact hadd

theorem workerRecv_absorbs (ht : t.Works) {ev : PcrEventWithMeta} (hnd : ((b.kvBuffer ++ eventKvs ev).map slot).Nodup) :
    Absorbs b e (eventKvs ev) (eventRanges ev) (workerRecv flushIntervalMs t ev b e).1
      (workerRecv flushIntervalMs t ev b e).2 := by
  unfold workerRecv eventKvs eventRanges
  unfold eventKvs at hnd
  cases hev : ev.event.event with
  | kvBatch kvs => rw [hev] at hnd; exact onKvBatch_absorbs ht hnd
  | deleteRange startKey endKey ts =>
    rw [hev, append_nil] at hnd
    exact onDeleteRange_absorbs ht hnd
  | _ => exact Absorbs.of_buffered (by simp) (by simp)

theorem workerIdle_absorbs {env : FlushEnv} (henv : env.Works) (hnd : (b.kvBuffer.map slot).Nodup) :
    Absorbs b e [] [] (workerIdle env b e).1 (workerIdle env b e).2 := by
  unfold workerIdle
  split
  · exact (flushQuiet_absorbs henv hnd).1
  · exact Absorbs.of_buffered (by simp) (by simp)

end Ingest
end Tikv
