import Tikv.LibRun
import Tikv.SpanRegistry
/-!
# SpanIndex — when the reverse index is exact

The index is exact when it gives a region's tables once each, just those whose span has a live worker there, and has no
empty entry.  One operation on an exact registry leaves it exact under a condition of its own (`indexExact_step_iff`):
an upsert must not replace a span that tracks a region, a region must be new to the span it is added to, a split must
keep the parent's id among distinct children new to every covering span, and a reconcile must stop nothing.
-/
namespace Tikv
namespace Span

open Lib List
open SpanRegistry

def Tracks (reg : SpanRegistry) (t : Int) (r : Nat) : Prop :=
  ∃ span, reg.spans.lookup t = some span ∧ ∃ w, span.workers.lookup r = some w ∧ w.state ≠ .stopped

structure IndexExact (reg : SpanRegistry) : Prop where
  mem_iff : ∀ r t, t ∈ reg.covering r ↔ Tracks reg t r
  nodup : ∀ r, (reg.covering r).Nodup
  noEmpty : NoEmpty reg.regionIndex

variable {reg : SpanRegistry} {t : Int} {r : Nat}

theorem tracks_iff : Tracks reg t r ↔ live (reg.worker t r) = true := by
  unfold live worker
  rw [Option.any_eq_true]
  constructor
  · rintro ⟨span, hs, w, hw, hst⟩
    exact ⟨w, by rw [hs]; exact hw, decide_eq_true hst⟩
  · rintro ⟨w, hw, hst⟩
    obtain ⟨span, hs, hw⟩ := Option.bind_eq_some_iff.1 hw
    exact ⟨span, hs, w, hw, of_decide_eq_true hst⟩

def Balanced (v : Option (Option RegionWorker) × Nat) : Prop := v.2 = (live v.1.join).toNat

theorem worker_eq_reads : reg.worker t r = (reg.reads t r).1.join := by
  unfold worker reads
  cases reg.spans.lookup t <;> rfl

theorem balanced_reads :
    Balanced (reg.reads t r) ↔ reg.indexed r t = (live (reg.worker t r)).toNat := by
  rw [worker_eq_reads]; rfl

theorem indexExact_iff :
    IndexExact reg ↔ (∀ t r, Balanced (reg.reads t r)) ∧ NoEmpty reg.regionIndex := by
  simp only [balanced_reads]
  constructor
  · intro h
    refine ⟨fun t r => ?_, h.noEmpty⟩
    unfold indexed
    rw [(h.nodup r).count]
    by_cases ht : Tracks reg t r
    · rw [if_pos ((h.mem_iff r t).2 ht), tracks_iff.1 ht]; rfl
    · rw [if_neg (mt (h.mem_iff r t).1 ht), Bool.eq_false_iff.2 (mt tracks_iff.2 ht)]; rfl
  · rintro ⟨h, hne⟩
    refine ⟨fun r t => ?_, fun r => ?_, hne⟩
    · rw [← count_pos_iff, tracks_iff]
      change 0 < reg.indexed r t ↔ _
      rw [h]
      cases live (reg.worker t r) <;> simp
    · rw [nodup_iff_count_le_one]
      intro t
      change reg.indexed r t ≤ 1
      rw [h]
      exact Bool.toNat_le _

theorem IndexExact.new : IndexExact SpanRegistry.new := by
  refine ⟨fun r t => ?_, fun r => nodup_nil, nofun⟩
  constructor
  · intro h; exact nomatch h
  · rintro ⟨span, hs, _⟩; exact nomatch hs

inductive Op
  | upsertSpan (span : ReplicationSpan)
  | removeSpan (tableId : Int)
  | addRegionToSpan (tableId : Int) (regionId : Nat)
  | onRegionSplit (parent : Nat) (children : List Nat)
  | reconcile (pdRegions : List (Nat × Bytes × Bytes))

def step (reg : SpanRegistry) : Op → SpanRegistry
  | .upsertSpan span => reg.upsertSpan span
  | .removeSpan t => (reg.removeSpan t).1
  | .addRegionToSpan t r => reg.addRegionToSpan t r
  | .onRegionSplit p cs => (reg.onRegionSplit p cs).1
  | .reconcile pd => (reg.reconcile pd).1

/-- What an operation must find to leave an exact index exact. -/
def Keeps (reg : SpanRegistry) : Op → Prop
  | .upsertSpan span => ∀ r, ¬ Tracks reg span.tableId r
  | .removeSpan _ => True
  | .addRegionToSpan t r => (reg.spans.lookup t).isSome ∧ ¬ Tracks reg t r
  | .onRegionSplit p cs => reg.covering p = [] ∨
      p ∈ cs ∧ cs.Nodup ∧ ∀ t ∈ reg.covering p, ∀ c ∈ cs, c ≠ p → reg.worker t c = none
  | .reconcile pd => ∀ t r, Tracks reg t r → r ∈ pd.map (·.1)

section

variable {reg : SpanRegistry} (h : IndexExact reg)
include h

theorem IndexExact.indexed_eq : reg.indexed r t = (live (reg.worker t r)).toNat :=
  balanced_reads.1 ((indexExact_iff.1 h).1 t r)

theorem indexExact_upsertSpan (span : ReplicationSpan) :
    IndexExact (reg.upsertSpan span) ↔ Keeps reg (.upsertSpan span) := by
  rw [indexExact_iff, and_iff_left (upsertSpan_noEmpty h.noEmpty)]
  simp only [balanced_reads, upsertSpan_indexed, upsertSpan_worker, h.indexed_eq, Keeps, tracks_iff]
  constructor
  · intro hb r
    have hr := hb span.tableId r
    cases hn : live (span.workers.lookup r) <;> simpa [hn] using hr
  · intro hk t r
    by_cases ht : t = span.tableId
    · subst ht
      cases hn : live (span.workers.lookup r) <;> simp [hk r, hn]
    · simp [ht]

theorem indexExact_removeSpan (t : Int) : IndexExact (reg.removeSpan t).1 := by
  rw [indexExact_iff, and_iff_left (removeSpan_noEmpty h.noEmpty)]
  simp only [balanced_reads, removeSpan_indexed, removeSpan_worker, h.indexed_eq]
  intro t' r
  by_cases ht : t' = t
  · subst ht
    cases hl : live (reg.worker t' r) <;> simp [live]
  · simp [ht]

theorem indexExact_addRegionToSpan (t : Int) (r : Nat) :
    IndexExact (reg.addRegionToSpan t r) ↔ Keeps reg (.addRegionToSpan t r) := by
  rw [indexExact_iff, and_iff_left (addRegionToSpan_noEmpty h.noEmpty)]
  simp only [balanced_reads, addRegionToSpan_indexed, addRegionToSpan_worker, h.indexed_eq, Keeps, tracks_iff,
    Bool.not_eq_true]
  constructor
  · intro hb
    have hr := hb t r
    cases hs : (reg.spans.lookup t).isSome with
    | false => simp [hs] at hr
    | true => refine ⟨rfl, ?_⟩; simpa [hs, live] using hr
  · rintro ⟨hs, hk⟩ t' r'
    by_cases htr : t' = t ∧ r' = r
    · obtain ⟨rfl, rfl⟩ := htr
      rw [if_pos ⟨rfl, rfl⟩, if_pos ⟨rfl, rfl, hs⟩, hk]; rfl
    have htr' : ¬ (r' = r ∧ t' = t) := fun h' => htr h'.symm
    have hnot : ¬ (t' = t ∧ r' = r ∧ (reg.spans.lookup t).isSome = true) := fun h' => htr ⟨h'.1, h'.2.1⟩
    rw [if_neg htr', if_neg hnot]; rfl

theorem indexExact_reconcile (pd : List (Nat × Bytes × Bytes)) :
    IndexExact (reg.reconcile pd).1 ↔ Keeps reg (.reconcile pd) := by
  rw [indexExact_iff]
  have hidx : ∀ r t, (reg.reconcile pd).1.indexed r t = reg.indexed r t := fun _ _ => rfl
  have hne : NoEmpty (reg.reconcile pd).1.regionIndex := h.noEmpty
  rw [and_iff_left hne]
  simp only [balanced_reads, hidx, reconcile_worker, h.indexed_eq, Keeps, tracks_iff]
  constructor
  · intro hb t r ht
    by_contra hpd
    have hr := hb t r
    rw [if_pos ⟨mem_tracked.2 ⟨t, ht⟩, hpd⟩, ht] at hr
    exact nomatch hr
  · intro hk t r
    rw [if_neg]
    rintro ⟨htr, hpd⟩
    obtain ⟨t', ht'⟩ := mem_tracked.1 htr
    exact hpd (hk t' r ht')

end

/-! ## Splits -/

variable {cs : List Nat}

theorem balanced_splitRead_parent (p : Nat) (w : RegionWorker) (n : Nat) :
    Balanced (splitRead p cs p (some (some w), n)) ↔ cs.count p = 1 := by
  unfold Balanced splitRead
  rw [childRead_iterate]
  by_cases hc : cs.count p = 0
  · simp [hc, live]
  · simp [hc, live, subscribed]

theorem balanced_splitRead_other {p : Nat} (hr : r ≠ p) {w : Option RegionWorker} {n : Nat} (hb : Balanced (some w, n)) :
    Balanced (splitRead p cs r (some w, n)) ↔ (r ∈ cs → cs.count r = 1 ∧ w = none) := by
  unfold Balanced splitRead at *
  rw [if_neg hr, childRead_iterate, ← count_pos_iff]
  change n = _ at hb
  by_cases hc : cs.count r = 0
  · simpa [hc] using hb
  rw [if_neg hc]
  have hpos : 0 < cs.count r := Nat.pos_of_ne_zero hc
  cases w with
  | none =>
    have hn : n = 0 := hb
    have hl : live (Option.map (subscribed r) (some none)).join = true := rfl
    rw [hl, Bool.toNat_true]
    exact ⟨fun hk _ => ⟨by omega, rfl⟩, fun hk => by have := (hk hpos).1; omega⟩
  | some w =>
    refine iff_of_false ?_ fun hk => nomatch (hk hpos).2
    by_cases hd : w.state = .draining
    · have hn : n = 1 := by rw [hb]; simp [live, hd]
      have hle := Bool.toNat_le (live (Option.map (subscribed r) (some (some w))).join)
      dsimp only
      omega
    · have hsub : subscribed r (some w) = some w := if_neg hd
      rw [Option.map_some, hsub, hb]
      dsimp only
      omega

/-- A split leaves a covering table balanced everywhere exactly when the parent is one of its children, no child comes
twice, and the table had no worker for another child. -/
theorem balanced_splitRead_iff (h : IndexExact reg) {p : Nat} (ht : t ∈ reg.covering p) :
    (∀ r, Balanced (splitRead p cs r (reg.reads t r))) ↔
      cs.count p = 1 ∧ ∀ r, r ≠ p → r ∈ cs → cs.count r = 1 ∧ reg.worker t r = none := by
  have hbal := (indexExact_iff.1 h).1
  -- a covering table has a span, and its worker for the parent
  obtain ⟨span, hs, w, hw, _⟩ := (h.mem_iff p t).1 ht
  have hreads : ∀ r, reg.reads t r = (some (reg.worker t r), reg.indexed r t) := by
    intro r
    unfold SpanRegistry.reads worker
    rw [hs]; rfl
  have hp : reg.worker t p = some w := by unfold worker; rw [hs]; exact hw
  constructor
  · intro hb
    refine ⟨?_, fun r hr => ?_⟩
    · have := hb p
      rw [hreads, hp] at this
      exact (balanced_splitRead_parent p w _).1 this
    · have := hb r
      rw [hreads] at this
      exact (balanced_splitRead_other hr (hreads r ▸ hbal t r)).1 this
  · rintro ⟨hone, hother⟩ r
    rw [hreads]
    by_cases hr : r = p
    · rw [hr, hp]
      exact (balanced_splitRead_parent p w _).2 hone
    · exact (balanced_splitRead_other hr (hreads r ▸ hbal t r)).2 (hother r hr)

theorem indexExact_onRegionSplit (h : IndexExact reg) (p : Nat) :
    IndexExact (reg.onRegionSplit p cs).1 ↔ Keeps reg (.onRegionSplit p cs) := by
  have hbal := (indexExact_iff.1 h).1
  rw [indexExact_iff, and_iff_left (onRegionSplit_noEmpty h.noEmpty)]
  simp only [onRegionSplit_reads (h.nodup p)]
  constructor
  · intro hb
    by_cases hnil : reg.covering p = []
    · exact .inl hnil
    right
    have hb' : ∀ t ∈ reg.covering p, ∀ r, Balanced (splitRead p cs r (reg.reads t r)) := by
      intro t ht r
      have := hb t r
      rwa [if_pos ht] at this
    obtain ⟨t, ht⟩ := exists_mem_of_ne_nil _ hnil
    obtain ⟨hone, hother⟩ := (balanced_splitRead_iff h ht).1 (hb' t ht)
    refine ⟨count_pos_iff.1 (by omega), nodup_iff_count_eq_one.2 fun r hr => ?_, fun t' ht' c hc hcp => ?_⟩
    · by_cases hrp : r = p
      · rw [hrp]; exact hone
      · exact (hother r hrp hr).1
    · exact (((balanced_splitRead_iff h ht').1 (hb' t' ht')).2 c hcp hc).2
  · intro hk t r
    split
    · rename_i ht
      rcases hk with hnil | ⟨hp, hnd, hw⟩
      · rw [hnil] at ht
        exact nomatch ht
      refine (balanced_splitRead_iff h ht).2 ⟨nodup_iff_count_eq_one.1 hnd p hp, fun r hr hmem => ?_⟩ r
      exact ⟨nodup_iff_count_eq_one.1 hnd r hmem, hw t ht r hmem hr⟩
    · exact hbal t r

/-! ## Sequences of operations -/

/-- **An operation on an exact registry leaves it exact exactly when it finds what it needs.** -/
theorem indexExact_step_iff (h : IndexExact reg) (op : Op) :
    IndexExact (step reg op) ↔ Keeps reg op := by
  cases op with
  | upsertSpan span => exact indexExact_upsertSpan h span
  | removeSpan t => exact iff_of_true (indexExact_removeSpan h t) trivial
  | addRegionToSpan t r => exact indexExact_addRegionToSpan h t r
  | onRegionSplit p cs => exact indexExact_onRegionSplit h p
  | reconcile pd => exact indexExact_reconcile h pd

/-- **The index stays exact through a sequence of operations exactly when each of them finds what it needs.** -/
theorem indexExact_throughout_iff (ops : List Op) : (∀ pre, pre <+: ops → IndexExact (pre.foldl step .new)) ↔
      Run (stepOf step) Keeps .new ops (ops.foldl step .new) := by
  refine invariant_prefix_iff (I := IndexExact) (fun reg op h => ?_) ops SpanRegistry.new IndexExact.new
  exact indexExact_step_iff h op

/-- A region that PD no longer has: `reconcile` stops its worker and the index still gives the table for it. -/
theorem not_indexExact_reconciled :
    ¬ IndexExact ([.upsertSpan (.new 1 [97] [98]), .addRegionToSpan 1 7, .reconcile []].foldl step .new) := by
  intro h
  have hmem := (h.mem_iff 7 1).1 (by decide)
  rw [tracks_iff] at hmem
  exact absurd hmem (by decide)

end Span
end Tikv
