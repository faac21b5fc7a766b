import Tikv.IngestRanges
/-!
# IngestFailedFlush — what a flush that fails keeps

`flush` takes the pairs out of its buffer before its first fallible step, and the groups are ingested one by one.  When
one of them is refused, the pairs of the groups before it are in the engine, and those of it and of the groups behind it
are in neither place; the range deletes are still buffered.  So a failed flush loses nothing exactly when each of those
pairs was in the engine already (`losesNothing_iff`).
-/
namespace Tikv
namespace Ingest

open List MvccKeyValue

open Lib (Bytes Patch)

/-- **A flush that fails loses nothing**: what was buffered is in the engine or still buffered. -/
def LosesNothing (env : FlushEnv) (b : SstBatcher) (e : Engine) : Prop :=
  ∀ b' e' err, b.flush env e = (b', e', .error err) →
    (∀ kv ∈ b.kvBuffer, e' kv.slot = some kv.value ∨ kv ∈ b'.kvBuffer) ∧
    ∀ r ∈ b.rangeBuffer, (∀ s, r.covers s = true → e' s = none) ∨ r ∈ b'.rangeBuffer

variable {env : FlushEnv} {g : CfGroup} {kvs : List MvccKeyValue} {e e' : Engine}

theorem Grouped.sublist {gs gs' : List CfGroup} (h : Grouped gs) (hsub : gs'.Sublist gs) : Grouped gs' :=
  ⟨fun g hg => h.cf g (hsub.subset hg), h.nodup.sublist (hsub.map _)⟩

variable {kv : MvccKeyValue}

theorem mem_written_or_unwritten : kv ∈ kvs ↔ kv ∈ env.written kvs ∨ ∃ g ∈ env.unwritten kvs, kv ∈ g.2 := by
  rw [← (order_groupByCf_perm env kvs).mem_iff]
  conv_lhs => rw [← takeWhile_append_dropWhile (p := env.accepts) (l := env.order (groupByCf kvs))]
  rw [flatMap_append, mem_append, mem_flatMap (l := dropWhile _ _)]
  rfl

theorem seqAll_put_of_nodup (hslots : (kvs.map slot).Nodup)
    (hkv : kv ∈ kvs) : Patch.seqAll (kvs.map patch) kv.slot = some (some kv.value) := by
  have hput : kv.patch kv.slot = some (some kv.value) := if_pos rfl
  refine Patch.seqAll_of_agree (mem_map_of_mem hkv) hput (forall_mem_map.2 fun x hx => ?_)
  by_cases hslot : kv.slot = x.slot
  · rw [inj_on_of_nodup_map hslots hkv hx hslot] at hput ⊢
    exact .inr hput
  · exact .inl (if_neg hslot)

theorem written_apply (hkv : kv ∈ env.written kvs)
    (e : Engine) : (Patch.seqAll ((env.written kvs).map patch)).apply e kv.slot = some kv.value := by
  have hgr := (order_groupByCf_grouped env kvs).sublist (takeWhile_sublist env.accepts)
  have hslots : ((env.written kvs).map slot).Nodup :=
    hgr.nodup_slots_iff.2 fun g hg => nodup_of_accepts ((takeWhile_sublist _).subset hg) (mem_takeWhile_imp hg)
  unfold Patch.apply
  rw [seqAll_put_of_nodup hslots hkv]
  rfl

theorem unwritten_apply (hg : g ∈ env.unwritten kvs) (hkv : kv ∈ g.2) (e : Engine) :
    (Patch.seqAll ((env.written kvs).map patch)).apply e kv.slot = e kv.slot := by
  have hgr := order_groupByCf_grouped env kvs
  refine Patch.apply_of_none (forall_mem_map.2 fun x hx => ?_) e
  refine if_neg fun heq => ?_
  -- the families of the two groups differ
  obtain ⟨g', hg', hx'⟩ := mem_flatMap.1 hx
  have hnodup := hgr.nodup
  rw [← takeWhile_append_dropWhile (p := env.accepts) (l := env.order (groupByCf kvs)), map_append,
    nodup_append'] at hnodup
  have hcf : g.1 = g'.1 := by
    rw [← hgr.cf g ((dropWhile_sublist _).subset hg) kv hkv, ← hgr.cf g' ((takeWhile_sublist _).subset hg') x hx']
    exact congrArg Prod.fst heq
  exact hnodup.2.2 (mem_map_of_mem hg') (hcf ▸ mem_map_of_mem hg)

variable {b b' : SstBatcher}

theorem flush_error_iff :
    (∃ err, b.flush env e = (b', e', .error err)) ↔ env.unwritten b.kvBuffer ≠ [] ∧ b' = { b with kvBuffer := [] } ∧
      e' = (Patch.seqAll ((env.written b.kvBuffer).map patch)).apply e := by
  obtain ⟨he, hok⟩ := ingestGroups_order env b.kvBuffer e
  unfold SstBatcher.flush
  split
  · rename_i hempty
    have hkv : b.kvBuffer = [] := isEmpty_iff.1 (Bool.and_eq_true_iff.1 hempty).1
    refine iff_of_false (fun ⟨_, h⟩ => nomatch h) fun h => h.1 ?_
    rw [hkv]
    unfold FlushEnv.unwritten
    rw [perm_nil.1 (env.order_perm (groupByCf []))]
    rfl
  · split
    · rename_i e₁ err hing
      rw [hing] at he hok
      have hne : env.unwritten b.kvBuffer ≠ [] := fun hnil => nomatch hok.2 hnil
      constructor
      · rintro ⟨_, h⟩
        cases h
        exact ⟨hne, rfl, he⟩
      · rintro ⟨-, rfl, rfl⟩
        exact ⟨err, by rw [← he]⟩
    · rename_i e₁ regionId totalBytes hing
      rw [hing] at hok
      exact iff_of_false (fun ⟨_, h⟩ => nomatch h) fun h => h.1 (hok.1 rfl)

theorem losesNothing_iff :
    LosesNothing env b e ↔ ∀ g ∈ env.unwritten b.kvBuffer, ∀ kv ∈ g.2, e kv.slot = some kv.value := by
  constructor
  · intro h g hg kv hkv
    have hne : env.unwritten b.kvBuffer ≠ [] := ne_nil_of_mem hg
    obtain ⟨err, hflush⟩ := flush_error_iff.2 ⟨hne, rfl, rfl⟩
    have hmem : kv ∈ b.kvBuffer := mem_written_or_unwritten.2 (.inr ⟨g, hg, hkv⟩)
    rcases (h _ _ err hflush).1 kv hmem with hin | hbuf
    · exact (unwritten_apply hg hkv e).symm.trans hin
    · exact absurd hbuf not_mem_nil
  · intro h b' e' err hflush
    obtain ⟨-, rfl, rfl⟩ := flush_error_iff.1 ⟨err, hflush⟩
    refine ⟨fun kv hkv => .inl ?_, fun r hr => .inr hr⟩
    rcases mem_written_or_unwritten.1 hkv with hin | ⟨g, hg, hkvg⟩
    · exact written_apply hin e
    · exact (unwritten_apply hg hkvg e).trans (h g hg kv hkvg)

/-- **What is buffered is written by the next flush that succeeds**; its range deletes come after its pairs. -/
theorem flush_writes (henv : ∀ cf, env.deleteRangesCf cf = .ok ())
    {res : FlushResult} (h : b.flush env e = (b', e', .ok res)) :
    (∀ kv ∈ b.kvBuffer, e' kv.slot = some kv.value ∨ ∃ r ∈ b.rangeBuffer, r.covers kv.slot = true) ∧
      ∀ r ∈ b.rangeBuffer, ∀ s, r.covers s = true → e' s = none := by
  obtain ⟨hnd, rfl, -, -⟩ := SstBatcher.flush_ok henv h
  unfold SstBatcher.patches Patch.apply
  rw [Patch.seqAll_append]
  unfold Patch.seq
  refine ⟨fun kv hkv => ?_, fun r hr s hcov => ?_⟩
  · rw [seqAll_ranges, seqAll_put_of_nodup hnd hkv]
    cases hany : b.rangeBuffer.any fun r => r.covers kv.slot with
    | true => exact .inr (any_eq_true.1 hany)
    | false => exact .inl rfl
  · rw [seqAll_ranges, any_eq_true.2 ⟨r, hr, hcov⟩]
    rfl

/-- **A failed flush loses nothing exactly when every pair it did not come to write was in the engine already.**  The
range deletes stay buffered, and what is buffered the next successful flush writes. -/
theorem failed_flush_loses_nothing_iff (env : FlushEnv) (b : SstBatcher) (e : Engine) :
    (LosesNothing env b e ↔ ∀ g ∈ env.unwritten b.kvBuffer, ∀ kv ∈ g.2, e kv.slot = some kv.value) ∧
    ∀ (env' : FlushEnv) (b' : SstBatcher) (e' : Engine) (res : FlushResult), (∀ cf, env'.deleteRangesCf cf = .ok ()) →
      b.flush env' e = (b', e', .ok res) →
        (∀ kv ∈ b.kvBuffer, e' kv.slot = some kv.value ∨ ∃ r ∈ b.rangeBuffer, r.covers kv.slot = true) ∧
        ∀ r ∈ b.rangeBuffer, ∀ s, r.covers s = true → e' s = none :=
  ⟨losesNothing_iff, fun _ _ _ _ hdel h => flush_writes hdel h⟩

def pdDown : FlushEnv := { FlushEnv.ideal 1 with getRegionInfo := fun _ => .error "PD down" }

def onePairBuffered : SstBatcher :=
  ((SstBatcher.new 64 64 0).addKv ⟨[97, 1], [5], .write⟩).addDeleteRange [98] [99] 7

/-- A pair that was delivered before is not lost with the flush, and the next flush applies the range delete. -/
theorem failed_flush_loses_nothing_redelivered :
    LosesNothing pdDown onePairBuffered (fun s => if s = (.write, [97, 1]) then some [5] else some [0]) ∧
    (onePairBuffered.flush (.ideal 1) fun s => if s = (.write, [97, 1]) then some [5] else some [0]).2.1
      (.write, [98]) = none := by
  obtain ⟨hiff, hnext⟩ := failed_flush_loses_nothing_iff pdDown onePairBuffered
    fun s => if s = (.write, [97, 1]) then some [5] else some [0]
  constructor
  · refine hiff.2 ?_
    decide +kernel
  · exact (hnext (.ideal 1) _ _ _ (fun _ => rfl) rfl).2 ⟨[98], [99], 7⟩ (by decide) (.write, [98]) (by decide)

/-- **A pair whose region is not found is gone**: it is not in the engine, and no later flush has it. -/
theorem pair_lost_pdDown : ∃ b' e' err, onePairBuffered.flush pdDown (fun _ => none) = (b', e', .error err) ∧
    e' (.write, [97, 1]) = none ∧ b'.kvBuffer = [] ∧ ¬ LosesNothing pdDown onePairBuffered fun _ => none := by
  refine ⟨_, _, _, rfl, rfl, rfl, fun h => ?_⟩
  have hkv := (h _ _ _ rfl).1 ⟨[97, 1], [5], .write⟩ (by decide)
  revert hkv
  decide

end Ingest
end Tikv
