import Tikv.LibTally
import Tikv.LibRun
import Tikv.UtilMemory
/-!
# ResolvedTsResolver — the resolved timestamp of a region (`resolved_ts::resolver`)

The resolver tracks the locks of a region: those of normal transactions key by key, with the count of each start
timestamp's keys; a large transaction by its start timestamp, until its representative key is untracked, with its least
commit timestamp looked up in the transaction status cache.  `resolve` goes up to the oldest of them and to `min_ts`.

`Tracked` is what is tracked, said by the calls alone.  A newly resolved timestamp is below every timestamp that a
tracked transaction may commit with (`resolves_of_run`); a call that cannot go up answers the timestamp it had.

`none` is a failed assertion of the source.
-/
namespace Tikv
namespace Resolve

open Lib Util Option Map

structure TxnLocks where
  lockCount : Nat
  sampleLock : Option Bytes
deriving DecidableEq, Repr

inductive TxnState
  | ongoing (minCommitTs : Nat)
  | committed (commitTs : Nat)
  | rolledBack
deriving DecidableEq, Repr

/-- What `TxnStatusCache::get` answers, after any updates and evictions. -/
abbrev TxnStatusCache := Nat → Option TxnState

structure Resolver where
  locksByKey : Map Bytes Nat
  lockTsHeap : Map Nat TxnLocks
  largeTxns : Map Nat TxnLocks
  largeTxnKeyRepresentative : Map Bytes Nat
  resolvedTs : Nat
  trackedIndex : Nat
  minTs : Nat
  stopped : Bool
  memoryQuota : MemoryQuota

open Resolver

def lockHeapSize (key : Bytes) : Nat := key.length + 8

def minByKey : List (Nat × TxnLocks) → Option (Nat × TxnLocks)
  | [] => none
  | x :: l =>
    match minByKey l with
    | none => some x
    | some y => if y.1 < x.1 then some y else some x

namespace Resolver

def new (memoryQuota : MemoryQuota) : Resolver := ⟨∅, ∅, ∅, ∅, 0, 0, 0, false, memoryQuota⟩

def updateTrackedIndex (r : Resolver) : Option Nat → Option Resolver
  | none => some r
  | some index => if r.trackedIndex ≤ index then some { r with trackedIndex := index } else none

def stopTracking (r : Resolver) : Resolver := { r with stopped := true }

/-- `track_normal_lock`, with whether the quota had room. -/
def trackNormalLock (r : Resolver) (startTs : Nat) (key : Bytes) : Resolver × Bool :=
  let bytes := lockHeapSize key
  match r.memoryQuota.alloc bytes with
  | none => (r, false)
  | some q =>
    match r.locksByKey.lookup key with
    | some _ => ({ r with memoryQuota := q.free bytes }, true)
    | none =>
      let txnLocks := (r.lockTsHeap.lookup startTs).getD ⟨0, some key⟩
      ({ r with
        memoryQuota := q
        lockTsHeap := r.lockTsHeap.insert startTs { txnLocks with lockCount := txnLocks.lockCount + 1 }
        locksByKey := r.locksByKey.insert key startTs }, true)

def trackLargeTxnLock (r : Resolver) (startTs : Nat) (key : Bytes) : Resolver :=
  match r.largeTxns.lookup startTs with
  | some entry =>
    { r with largeTxns := r.largeTxns.insert startTs { entry with lockCount := entry.lockCount + 1 } }
  | none =>
    { r with
      largeTxnKeyRepresentative := r.largeTxnKeyRepresentative.insert key startTs
      largeTxns := r.largeTxns.insert startTs ⟨1, some key⟩ }

def trackLock (r : Resolver) (startTs : Nat) (key : Bytes) (index : Option Nat) (generation : Nat) :
    Option (Resolver × Bool) :=
  (r.updateTrackedIndex index).map fun r =>
    if generation = 0 then r.trackNormalLock startTs key else (r.trackLargeTxnLock startTs key, true)

def decrement (heap : Map Nat TxnLocks) (startTs : Nat) : Map Nat TxnLocks :=
  match heap.lookup startTs with
  | none => heap
  | some txnLocks =>
    -- a count of zero stays
    let lockCount := txnLocks.lockCount - 1
    if lockCount = 0 then heap.erase startTs else heap.insert startTs { txnLocks with lockCount }

def untrackLock (r : Resolver) (key : Bytes) (index : Option Nat) : Option Resolver :=
  (r.updateTrackedIndex index).map fun r =>
    match r.locksByKey.lookup key with
    | some startTs =>
      { r with
        locksByKey := r.locksByKey.erase key
        memoryQuota := r.memoryQuota.free (lockHeapSize key)
        lockTsHeap := decrement r.lockTsHeap startTs }
    | none =>
      match r.largeTxnKeyRepresentative.lookup key with
      | some startTs =>
        { r with
          largeTxnKeyRepresentative := r.largeTxnKeyRepresentative.erase key
          largeTxns := r.largeTxns.erase startTs }
      | none => r

/-- "When not found in cache, fallback to its start_ts as start_ts is also a valid min_commit_ts" -/
def lookupMinCommitTs (cache : TxnStatusCache) (startTs : Nat) : Option Nat :=
  match cache startTs with
  | none => some startTs
  | some (.ongoing minCommitTs) => some minCommitTs
  | some (.committed _) => none
  | some .rolledBack => none

/-- The large transactions that are still going on, each with the timestamp before its least commit timestamp. -/
def largeCandidates (cache : TxnStatusCache) : List ((_ : Nat) × TxnLocks) → Option (List (Nat × TxnLocks))
  | [] => some []
  | x :: l =>
    match lookupMinCommitTs cache x.1 with
    | none => largeCandidates cache l
    | some minCommitTs =>
      -- `TimeStamp::prev`
      if minCommitTs = 0 then none else (largeCandidates cache l).map ((minCommitTs - 1, x.2) :: ·)

def oldestTransaction (r : Resolver) (cache : TxnStatusCache) : Option (Option (Nat × TxnLocks)) :=
  let oldestNormalTxn := minByKey (r.lockTsHeap.entries.map fun x => (x.1, x.2))
  (largeCandidates cache r.largeTxns.entries).map fun candidates =>
    match oldestNormalTxn, minByKey candidates with
    | some x, some y => if x.1 < y.1 then some x else some y
    | some x, none => some x
    | none, some y => some y
    | none, none => none

def resolve (r : Resolver) (cache : TxnStatusCache) (minTs : Nat) : Option (Resolver × Nat) :=
  if r.stopped then some (r, r.resolvedTs)
  else
    (r.oldestTransaction cache).map fun minLock =>
      let minTxnTs := (minLock.map (·.1)).getD minTs
      let newResolvedTs := min minTxnTs minTs
      let resolvedTs := max r.resolvedTs newResolvedTs
      let newMinTs := if minLock.isSome then newResolvedTs else minTs
      ({ r with resolvedTs, minTs := max r.minTs newMinTs }, resolvedTs)

end Resolver

/-! ## What is tracked -/

/-- **The tracked transactions, by the calls.**  A key of a normal transaction is the transaction's it was tracked for
first, until it is untracked; a large transaction is tracked until the key it was tracked with first is untracked as a
large transaction's. -/
structure Tracked where
  owner : Bytes → Option Nat
  representative : Nat → Option Bytes

namespace Tracked

def empty : Tracked := ⟨fun _ => none, fun _ => none⟩

def track (t : Tracked) (startTs : Nat) (key : Bytes) (generation : Nat) : Tracked :=
  if generation = 0 then
    { t with owner := fun k => if k = key then some ((t.owner key).getD startTs) else t.owner k }
  else
    { t with
      representative := fun s =>
        if s = startTs then some ((t.representative startTs).getD key) else t.representative s }

def untrack (t : Tracked) (key : Bytes) : Tracked :=
  if (t.owner key).isSome then { t with owner := fun k => if k = key then none else t.owner k }
  else { t with representative := fun s => if t.representative s = some key then none else t.representative s }

end Tracked

/-- **The timestamps that a large transaction may commit with**, by its cached state. -/
def LargeCommitTs (cache : TxnStatusCache) (startTs commitTs : Nat) : Prop :=
  match cache startTs with
  | none => startTs ≤ commitTs
  | some (.ongoing minCommitTs) => minCommitTs ≤ commitTs
  | some (.committed _) => False
  | some .rolledBack => False

/-- **A tracked transaction may commit at `commitTs`.** -/
def Tracked.MayCommitAt (t : Tracked) (cache : TxnStatusCache) (commitTs : Nat) : Prop :=
  (∃ key startTs, t.owner key = some startTs ∧ startTs < commitTs) ∨
    ∃ startTs key, t.representative startTs = some key ∧ LargeCommitTs cache startTs commitTs

/-! ## The resolver under its calls -/

structure Observed where
  resolver : Resolver
  cache : TxnStatusCache
  tracked : Tracked

inductive Call
  | trackLock (startTs : Nat) (key : Bytes) (index : Option Nat) (generation : Nat)
  | untrackLock (key : Bytes) (index : Option Nat)
  | resolve (minTs : Nat)
  | stopTracking
  /-- the cache is updated, or drops entries -/
  | setCache (cache : TxnStatusCache)
  /-- others use the quota, or it is resized -/
  | setQuota (q : MemoryQuota)

namespace Observed

def new (memoryQuota : MemoryQuota) (cache : TxnStatusCache) : Observed := ⟨.new memoryQuota, cache, .empty⟩

/-- A lock that the quota refuses is not tracked. -/
def run (o : Observed) : Call → Option Observed
  | .trackLock startTs key index generation =>
    (o.resolver.trackLock startTs key index generation).map fun r =>
      { o with resolver := r.1, tracked := if r.2 then o.tracked.track startTs key generation else o.tracked }
  | .untrackLock key index =>
    (o.resolver.untrackLock key index).map fun resolver => { o with resolver, tracked := o.tracked.untrack key }
  | .resolve minTs => (o.resolver.resolve o.cache minTs).map fun r => { o with resolver := r.1 }
  | .stopTracking => some { o with resolver := o.resolver.stopTracking }
  | .setCache cache => some { o with cache }
  | .setQuota q => some { o with resolver := { o.resolver with memoryQuota := q } }

def Step (o : Observed) (c : Call) (o' : Observed) : Prop := o.run c = some o'

end Observed

/-! ## The heap -/

def HeapCounts (locks : Map Bytes Nat) (heap : Map Nat TxnLocks) : Prop :=
  ∀ s, (heap.lookup s).map (·.lockCount) =
    if occurrences (fun _ => true) locks s = 0 then none else some (occurrences (fun _ => true) locks s)

variable {heap : Map Nat TxnLocks} {startTs : Nat} {txnLocks : TxnLocks}

section

variable (hl : heap.lookup startTs = some txnLocks)
include hl

theorem Resolver.decrement_last (hcount : txnLocks.lockCount = 1) :
    decrement heap startTs = heap.erase startTs := by
  unfold decrement
  rw [hl]
  dsimp only
  rw [if_pos (by omega)]

theorem Resolver.decrement_pos (hcount : 1 < txnLocks.lockCount) :
    decrement heap startTs = heap.insert startTs { txnLocks with lockCount := txnLocks.lockCount - 1 } := by
  unfold decrement
  rw [hl]
  dsimp only
  rw [if_neg (by omega)]

end

theorem Resolver.lookup_decrement_of_ne (heap : Map Nat TxnLocks) {s : Nat} (hne : s ≠ startTs) :
    (decrement heap startTs).lookup s = heap.lookup s := by
  unfold decrement
  cases heap.lookup startTs with
  | none => rfl
  | some txnLocks =>
    dsimp only
    split
    · rw [lookup_erase, if_neg hne]
    · rw [lookup_insert, if_neg hne]

variable {locks : Map Bytes Nat} {key : Bytes}

section

variable (h : HeapCounts locks heap)
include h

theorem HeapCounts.mem {s : Nat} (hkey : locks.lookup key = some s) : ∃ txnLocks, heap.lookup s = some txnLocks := by
  have hs := h s
  have hpos : 0 < occurrences (fun _ => true) locks s := occurrences_pos rfl hkey
  rw [if_neg (by omega)] at hs
  obtain ⟨txnLocks, hl, -⟩ := map_eq_some_iff.1 hs
  exact ⟨txnLocks, hl⟩

theorem HeapCounts.insert (hkey : locks.lookup key = none) (startTs : Nat) (sample : Option Bytes) :
    HeapCounts (locks.insert key startTs) (heap.insert startTs { (heap.lookup startTs).getD ⟨0, sample⟩ with
      lockCount := ((heap.lookup startTs).getD ⟨0, sample⟩).lockCount + 1 }) := by
  intro s
  rw [lookup_insert, occurrences_insert rfl hkey]
  have hs := h s
  split
  · rename_i heq
    subst heq
    rw [one_self]
    cases hl : heap.lookup s with
    | none =>
      rw [hl] at hs
      split at hs
      · rename_i h0
        rw [h0]; rfl
      · cases hs
    | some txnLocks =>
      rw [hl] at hs
      split at hs
      · cases hs
      · exact congrArg (fun n => some (n + 1)) (some.inj hs)
  · rename_i hne
    rw [one_of_ne hne]
    exact hs

theorem HeapCounts.erase (hkey : locks.lookup key = some startTs) :
    HeapCounts (locks.erase key) (decrement heap startTs) := by
  intro s
  have hs := h s
  have hstart := h startTs
  have hcount := occurrences_erase (fun _ => true) rfl hkey s
  obtain ⟨txnLocks, hl⟩ := h.mem hkey
  rw [hl] at hstart
  rw [if_neg (by have := occurrences_pos (p := fun _ => true) rfl hkey; omega), map_some] at hstart
  have hlock := some.inj hstart
  by_cases hne : s = startTs
  · subst hne
    rw [one_self] at hcount
    by_cases hlast : occurrences (fun _ => true) (locks.erase key) s = 0
    · rw [decrement_last hl (by omega), lookup_erase, if_pos rfl, if_pos hlast]; rfl
    rw [decrement_pos hl (by omega), lookup_insert, if_pos rfl, if_neg hlast]
    exact congrArg some (by dsimp only; omega)
  · rw [one_of_ne hne, add_zero] at hcount
    rw [hcount, lookup_decrement_of_ne heap hne]
    exact hs

end

/-! ## The invariant -/

/-- **The resolver holds what is tracked**: the locks by key are the owned keys, with each start timestamp's count in
the heap; each tracked large transaction is in the table, and a representative's entry leads to the transaction that it
represents. -/
structure Holds (r : Resolver) (t : Tracked) : Prop where
  locks : ∀ key, r.locksByKey.lookup key = t.owner key
  heap : HeapCounts r.locksByKey r.lockTsHeap
  large : ∀ startTs key, t.representative startTs = some key → (r.largeTxns.lookup startTs).isSome
  links : ∀ startTs key, r.largeTxnKeyRepresentative.lookup key = some startTs → t.representative startTs = some key

variable {r r' : Resolver} {t : Tracked} {index : Option Nat}

section

variable (h : Holds r t)
include h

theorem Holds.updateTrackedIndex (hr : r.updateTrackedIndex index = some r') :
    Holds r' t ∧ r'.resolvedTs = r.resolvedTs := by
  unfold Resolver.updateTrackedIndex at hr
  split at hr
  · cases hr; exact ⟨h, rfl⟩
  split at hr
  · cases hr; exact ⟨{ h with }, rfl⟩
  · cases hr

theorem Holds.trackNormalLock {ok : Bool} (hr : r.trackNormalLock startTs key = (r', ok)) :
    Holds r' (if ok then t.track startTs key 0 else t) ∧ r'.resolvedTs = r.resolvedTs := by
  unfold Resolver.trackNormalLock at hr
  dsimp only at hr
  split at hr
  · cases hr
    exact ⟨h, rfl⟩
  split at hr
  · rename_i hkey
    cases hr
    have howner : t.owner key = some _ := (h.locks key).symm.trans hkey
    refine ⟨⟨fun k => (h.locks k).trans ?_, h.heap, h.large, h.links⟩, rfl⟩
    show t.owner k = if k = key then some ((t.owner key).getD startTs) else t.owner k
    split
    · rename_i heq
      rw [heq, howner]; rfl
    · rfl
  · rename_i hkey
    cases hr
    have howner : t.owner key = none := (h.locks key).symm.trans hkey
    refine ⟨⟨fun k => ?_, h.heap.insert hkey startTs (some key), h.large, h.links⟩, rfl⟩
    show (AList.insert key startTs r.locksByKey).lookup k =
      if k = key then some ((t.owner key).getD startTs) else t.owner k
    rw [lookup_insert, howner, h.locks k]; rfl

theorem Holds.trackLargeTxnLock (startTs : Nat) (key : Bytes) {generation : Nat} (hgen : generation ≠ 0) :
    Holds (r.trackLargeTxnLock startTs key) (t.track startTs key generation) ∧
      (r.trackLargeTxnLock startTs key).resolvedTs = r.resolvedTs := by
  have hlarge : ∀ (txnLocks : TxnLocks) s k,
      (if s = startTs then some ((t.representative startTs).getD key) else t.representative s) = some k →
        ((AList.insert startTs txnLocks r.largeTxns).lookup s).isSome := by
    intro txnLocks s k hs
    rw [lookup_insert]
    split
    · rfl
    rename_i hne
    rw [if_neg hne] at hs
    exact h.large s k hs
  unfold Resolver.trackLargeTxnLock Tracked.track
  rw [if_neg hgen]
  cases hl : r.largeTxns.lookup startTs with
  | some entry =>
    refine ⟨⟨h.locks, h.heap, hlarge _, fun s k hlink => ?_⟩, rfl⟩
    have hs := h.links s k hlink
    dsimp only
    split
    · rename_i heq
      rw [← heq, hs]; rfl
    · exact hs
  | none =>
    -- no representative leads to a transaction that is not in the table
    have hnone : t.representative startTs = none := by
      cases hrep : t.representative startTs with
      | none => rfl
      | some k =>
        have hsome := h.large startTs k hrep
        rw [hl] at hsome
        cases hsome
    refine ⟨⟨h.locks, h.heap, hlarge _, fun s k hlink => ?_⟩, rfl⟩
    dsimp only at hlink ⊢
    rcases lookup_insert_cases hlink with ⟨heq, rfl⟩ | hlink
    · rw [if_pos rfl, hnone, heq]; rfl
    · have hs := h.links s k hlink
      rw [if_neg fun heq => by rw [heq, hnone] at hs; cases hs]
      exact hs

theorem Holds.untrackLock (hr : r.untrackLock key index = some r') :
    Holds r' (t.untrack key) ∧ r'.resolvedTs = r.resolvedTs := by
  obtain ⟨r₁, hindex, rfl⟩ := map_eq_some_iff.1 hr
  obtain ⟨h₁, hsame⟩ := h.updateTrackedIndex hindex
  unfold Tracked.untrack
  rw [← h₁.locks key]
  cases hkey : r₁.locksByKey.lookup key with
  | some startTs =>
    refine ⟨⟨fun k => ?_, h₁.heap.erase hkey, h₁.large, h₁.links⟩, hsame⟩
    rw [lookup_erase, h₁.locks k]; rfl
  | none =>
    rw [if_neg (by rw [isSome_none]; exact Bool.false_ne_true)]
    cases hrep : r₁.largeTxnKeyRepresentative.lookup key with
    | some startTs =>
      have hstart := h₁.links startTs key hrep
      refine ⟨⟨h₁.locks, h₁.heap, fun s k hs => ?_, fun s k hlink => ?_⟩, hsame⟩
      · dsimp only at hs ⊢
        split at hs
        · cases hs
        rename_i hne
        rw [lookup_erase, if_neg fun (heq : s = startTs) => hne (heq ▸ hstart)]
        exact h₁.large s k hs
      · dsimp only at hlink ⊢
        rw [lookup_erase] at hlink
        split at hlink
        · cases hlink
        rename_i hne
        have hs := h₁.links s k hlink
        rw [if_neg fun heq => hne (some.inj (hs.symm.trans heq))]
        exact hs
    | none =>
      refine ⟨⟨h₁.locks, h₁.heap, fun s k hs => ?_, fun s k hlink => ?_⟩, hsame⟩
      · dsimp only at hs
        split at hs
        · cases hs
        · exact h₁.large s k hs
      · have hs := h₁.links s k hlink
        dsimp only
        rw [if_neg fun heq => by
          rw [some.inj (hs.symm.trans heq), hrep] at hlink
          cases hlink]
        exact hs

end

/-! ## The oldest transaction -/

theorem minByKey_le : ∀ (l : List (Nat × TxnLocks)), ∀ x ∈ l, ∃ y, minByKey l = some y ∧ y.1 ≤ x.1
  | [], _, hx => nomatch hx
  | z :: l, x, hx => by
    have ih := minByKey_le l
    rw [minByKey]
    cases hl : minByKey l with
    | none =>
      rcases List.mem_cons.1 hx with rfl | hmem
      · exact ⟨x, rfl, le_rfl⟩
      obtain ⟨y, hy, -⟩ := ih x hmem
      rw [hl] at hy
      cases hy
    | some y =>
      dsimp only
      rcases List.mem_cons.1 hx with rfl | hmem
      · split
        · rename_i hlt
          exact ⟨y, rfl, hlt.le⟩
        · exact ⟨x, rfl, le_rfl⟩
      · obtain ⟨y', hy', hle⟩ := ih x hmem
        obtain rfl : y = y' := some.inj (hl.symm.trans hy')
        split
        · exact ⟨y, rfl, hle⟩
        · exact ⟨z, rfl, by omega⟩

variable {cache : TxnStatusCache} {commitTs : Nat}

theorem LargeCommitTs.lookup (hts : LargeCommitTs cache startTs commitTs) :
    ∃ minCommitTs, lookupMinCommitTs cache startTs = some minCommitTs ∧ minCommitTs ≤ commitTs := by
  unfold LargeCommitTs at hts
  unfold lookupMinCommitTs
  split at hts
  · exact ⟨_, rfl, hts⟩
  · exact ⟨_, rfl, hts⟩
  all_goals exact hts.elim

theorem Resolver.candidate_lt (hts : LargeCommitTs cache startTs commitTs) :
    ∀ {l : List ((_ : Nat) × TxnLocks)} {candidates : List (Nat × TxnLocks)},
      largeCandidates cache l = some candidates → ⟨startTs, txnLocks⟩ ∈ l → ∃ x ∈ candidates, x.1 < commitTs
  | [], _, _, hmem => nomatch hmem
  | y :: l, candidates, hc, hmem => by
    obtain ⟨m, hm, hle⟩ := hts.lookup
    rw [largeCandidates] at hc
    cases hy : lookupMinCommitTs cache y.1 with
    | none =>
      rw [hy] at hc
      refine candidate_lt hts hc ((List.mem_cons.1 hmem).resolve_left ?_)
      rintro rfl
      cases hy.symm.trans hm
    | some minCommitTs =>
      rw [hy] at hc
      dsimp only at hc
      split at hc
      · cases hc
      obtain ⟨rest, hrest, rfl⟩ := map_eq_some_iff.1 hc
      rcases List.mem_cons.1 hmem with rfl | hmem
      · obtain rfl : minCommitTs = m := some.inj (hy.symm.trans hm)
        exact ⟨_, List.mem_cons_self, by dsimp only; omega⟩
      obtain ⟨x, hx, hlt⟩ := candidate_lt hts hrest hmem
      exact ⟨x, List.mem_cons_of_mem _ hx, hlt⟩

theorem Holds.oldestTransaction_lt (h : Holds r t)
    {oldest : Option (Nat × TxnLocks)} (hold : r.oldestTransaction cache = some oldest)
    (hts : t.MayCommitAt cache commitTs) : ∃ x, oldest = some x ∧ x.1 < commitTs := by
  obtain ⟨candidates, hcand, rfl⟩ := map_eq_some_iff.1 hold
  rcases hts with ⟨key, startTs, howner, hlt⟩ | ⟨startTs, key, hrep, hlarge⟩
  · obtain ⟨txnLocks, hl⟩ := h.heap.mem ((h.locks key).trans howner)
    obtain ⟨y, hy, hle⟩ := minByKey_le (r.lockTsHeap.entries.map fun x => (x.1, x.2)) (startTs, txnLocks)
      (List.mem_map.2 ⟨⟨startTs, txnLocks⟩, mem_entries.2 hl, rfl⟩)
    rw [hy]
    cases minByKey candidates with
    | none => exact ⟨y, rfl, by dsimp only at hle; omega⟩
    | some z =>
      dsimp only at hle ⊢
      split
      · exact ⟨y, rfl, by omega⟩
      · exact ⟨z, rfl, by omega⟩
  · obtain ⟨txnLocks, hl⟩ := isSome_iff_exists.1 (h.large startTs key hrep)
    obtain ⟨x, hx, hxlt⟩ := candidate_lt hlarge hcand (mem_entries.2 hl)
    obtain ⟨z, hz, hle⟩ := minByKey_le candidates x hx
    rw [hz]
    cases minByKey (r.lockTsHeap.entries.map fun x => (x.1, x.2)) with
    | none => exact ⟨z, rfl, by omega⟩
    | some y =>
      dsimp only
      split
      · exact ⟨y, rfl, by omega⟩
      · exact ⟨z, rfl, by omega⟩

/-! ## Every run -/

theorem Resolver.resolve_eq {minTs ts : Nat} (hr : r.resolve cache minTs = some (r', ts)) :
    (∃ minTs, r' = { r with resolvedTs := ts, minTs }) ∧ r.resolvedTs ≤ ts := by
  unfold resolve at hr
  split at hr
  · cases hr
    exact ⟨⟨_, rfl⟩, le_rfl⟩
  obtain ⟨minLock, -, heq⟩ := map_eq_some_iff.1 hr
  cases heq
  exact ⟨⟨_, rfl⟩, le_max_left _ _⟩

/-- **A call goes up below every commit timestamp to come**, or it answers what was resolved before. -/
theorem Holds.resolve_lt (h : Holds r t) {minTs ts : Nat} (hr : r.resolve cache minTs = some (r', ts)) :
    ts = r.resolvedTs ∨ ts ≤ minTs ∧ ∀ commitTs, t.MayCommitAt cache commitTs → ts < commitTs := by
  unfold resolve at hr
  split at hr
  · cases hr
    exact .inl rfl
  obtain ⟨minLock, hmin, heq⟩ := map_eq_some_iff.1 hr
  cases heq
  rcases le_total (min ((minLock.map (·.1)).getD minTs) minTs) r.resolvedTs with hle | hle
  · exact .inl (max_eq_left hle)
  refine .inr ⟨?_, fun commitTs hts => ?_⟩ <;> rw [max_eq_right hle]
  · exact min_le_right _ _
  · obtain ⟨x, rfl, hx⟩ := h.oldestTransaction_lt hmin hts
    exact (min_le_left _ _).trans_lt hx

/-- **A call keeps what the resolver holds**, and the resolved timestamp does not go down. -/
theorem Observed.step_holds {o o' : Observed} {c : Call} (h : Holds o.resolver o.tracked) (hc : o.Step c o') :
    Holds o'.resolver o'.tracked ∧ o.resolver.resolvedTs ≤ o'.resolver.resolvedTs := by
  cases c with
  | trackLock startTs key index generation =>
    obtain ⟨r, hr, rfl⟩ := map_eq_some_iff.1 hc
    obtain ⟨r₁, hindex, rfl⟩ := map_eq_some_iff.1 hr
    obtain ⟨h₁, hsame⟩ := h.updateTrackedIndex hindex
    rw [← hsame]
    by_cases hgen : generation = 0
    · subst hgen
      exact (h₁.trackNormalLock rfl).imp_right Eq.ge
    rw [if_neg hgen]
    exact (h₁.trackLargeTxnLock startTs key hgen).imp_right Eq.ge
  | untrackLock key index =>
    obtain ⟨r, hr, rfl⟩ := map_eq_some_iff.1 hc
    exact (h.untrackLock hr).imp_right Eq.ge
  | resolve minTs =>
    obtain ⟨⟨r, ts⟩, hr, rfl⟩ := map_eq_some_iff.1 hc
    obtain ⟨⟨_, rfl⟩, hle⟩ := resolve_eq hr
    exact ⟨{ h with }, hle⟩
  | setCache cache => cases hc; exact ⟨h, le_rfl⟩
  | _ => cases hc; exact ⟨{ h with }, le_rfl⟩

theorem Holds.new (q : MemoryQuota) : Holds (.new q) .empty where
  locks _ := rfl
  heap _ := rfl
  large _ _ h := nomatch h
  links _ _ h := nomatch h

/-- **The resolved timestamp.**  It never goes down; a call answers what it was, or goes up to a timestamp at most
`min_ts` and below every one that a tracked transaction may commit with. -/
theorem resolves_of_run {q : MemoryQuota} {cache : TxnStatusCache} {calls : List Call} {o : Observed}
    (hrun : Run Observed.Step always (.new q cache) calls o) :
    (∀ calls' o', Run Observed.Step always o calls' o' → o.resolver.resolvedTs ≤ o'.resolver.resolvedTs) ∧
    ∀ minTs r ts, o.resolver.resolve o.cache minTs = some (r, ts) →
      r.resolvedTs = ts ∧ o.resolver.resolvedTs ≤ ts ∧
      (ts = o.resolver.resolvedTs ∨
        ts ≤ minTs ∧ ∀ commitTs, o.tracked.MayCommitAt o.cache commitTs → ts < commitTs) := by
  have hholds : Holds o.resolver o.tracked :=
    hrun.invariant (I := fun o => Holds o.resolver o.tracked) (fun _ _ _ h _ hc => (Observed.step_holds h hc).1) (.new q)
  refine ⟨fun calls' o' hrun' => ?_, fun minTs r ts hr => ?_⟩
  · exact (hrun'.invariant (I := fun o' => Holds o'.resolver o'.tracked ∧ o.resolver.resolvedTs ≤ o'.resolver.resolvedTs)
      (fun _ _ _ h _ hc => (Observed.step_holds h.1 hc).imp_right h.2.trans) ⟨hholds, le_rfl⟩).2
  · obtain ⟨⟨_, rfl⟩, hle⟩ := resolve_eq hr
    exact ⟨rfl, hle, hholds.resolve_lt hr⟩

def Answers (calls : List Call) (minTs ts : Nat) : Prop :=
  ∃ o r, Run Observed.Step always (.new ⟨0, 1000⟩ fun _ => none) calls o ∧ o.resolver.resolve o.cache minTs = some (r, ts)

theorem resolves_of_run_lock :
    ∃ o, Run Observed.Step always (.new ⟨0, 1000⟩ fun _ => none) [.trackLock 5 [0x61] none 0] o ∧
      o.tracked.MayCommitAt o.cache 6 ∧ ∃ r, o.resolver.resolve o.cache 20 = some (r, 5) ∧ 5 < 6 := by
  have hrun : Run Observed.Step always (.new ⟨0, 1000⟩ fun _ => none) [.trackLock 5 [0x61] none 0] _ :=
    .cons trivial rfl (.nil _)
  refine ⟨_, hrun, .inl ⟨[0x61], 5, rfl, by decide⟩, _, rfl, ?_⟩
  obtain ⟨-, -, hts | ⟨-, hlt⟩⟩ := (resolves_of_run hrun).2 20 _ 5 rfl
  · cases hts
  · exact hlt 6 (.inl ⟨[0x61], 5, rfl, by decide⟩)

/-- **Where the answer is not below a commit timestamp, or above `min_ts`**: `min_ts` goes down; a lock comes in below
what was resolved; the cache has the large transaction committed at 8; the first key of a large transaction is untracked
before its second; a key is tracked for a second transaction. -/
theorem passes_commit_ts : Answers [.resolve 10] 5 10 ∧
    Answers [.resolve 10, .trackLock 5 [0x61] none 0] 20 10 ∧
    Answers [.trackLock 5 [0x61] none 1, .setCache fun s => if s = 5 then some (.committed 8) else none] 20 20 ∧
    Answers [.trackLock 5 [0x61] none 1, .trackLock 5 [0x62] none 1,
      .setCache fun s => if s = 5 then some (.ongoing 8) else none, .untrackLock [0x61] none] 20 20 ∧
    Answers [.trackLock 9 [0x61] none 0, .trackLock 5 [0x61] none 0] 20 9 := by
  refine ⟨?_, ?_, ?_, ?_, ?_⟩
  all_goals exact ⟨_, _, .of_foldlM rfl, rfl⟩

end Resolve
end Tikv
