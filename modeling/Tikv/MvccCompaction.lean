import Tikv.LibRun
import Tikv.MvccGc
/-!
# MvccCompaction — garbage collection in compactions (`WriteCompactionFilter`)

A compaction of the write column family shows its filter some versions of some keys, newest first.  The filter deletes
records without data, and what is older than a PUT or DELETE it has seen of the key; the values of PUTs that it deletes are
collected in a batch, and keys that may be all deleted are sent to the GC worker.  It sees no more than one compaction has,
but what it deletes is covered in the whole chain (`filterFrom_spec`).

Over every sequence of compactions and of runs of `actions::gc` up to a safe point, reads at or above it stay as they are
(`collected_of_run`).  A batch whose write fails is left to the GC worker, and the filter keeps the record whose value it
has put in it; if no batch fails so, no value of a PUT that is left is deleted.
-/
namespace Tikv
namespace Mvcc

open Lib List

/-! ## The filter -/

structure Version where
  key : Bytes
  commitTs : Nat
  write : Write
deriving DecidableEq

inductive GcTask
  | gcKeys (keys : List Bytes) (safePoint : Nat)
  | orphanVersions (wb : List (Bytes × Nat))
deriving DecidableEq

inductive Decision
  | keep
  | remove
  | removeAndSkipUntil (key : Bytes) (ts : Nat)
deriving DecidableEq

structure FlushEnv where
  deleteBatchCount : Nat
  flushOk : Bool

def defaultDeleteBatchCount : Nat := 128

structure WriteCompactionFilter where
  safePoint : Nat
  /-- without one, batches go to the GC worker -/
  hasEngine : Bool
  isBottommostLevel : Bool
  encounteredErrors : Bool
  writeBatch : List (Bytes × Nat)
  mvccDeletions : List Bytes
  /-- the records covered by the current DELETE mark -/
  mvccDeletionOverlaps : Option Nat
  /-- `none` before the first key -/
  mvccKeyPrefix : Option Bytes
  removeOlder : Bool
  flushed : List (Bytes × Nat)
  tasks : List GcTask

open WriteCompactionFilter

namespace WriteCompactionFilter

def new (safePoint : Nat) (hasEngine isBottommostLevel : Bool) : WriteCompactionFilter :=
  ⟨safePoint, hasEngine, isBottommostLevel, false, [], [], none, none, false, [], []⟩

variable (f : WriteCompactionFilter) (env : FlushEnv)

def handleBottommostDelete : WriteCompactionFilter :=
  { f with mvccDeletions := f.mvccDeletions ++ f.mvccKeyPrefix.toList }

def gcMvccDeletions : WriteCompactionFilter :=
  if f.mvccDeletions.isEmpty then f
  else { f with mvccDeletions := [], tasks := f.tasks ++ [.gcKeys f.mvccDeletions f.safePoint] }

/-- `false` is an error. -/
def flushPendingWritesIfNeed (force : Bool) : WriteCompactionFilter × Bool :=
  if f.writeBatch.isEmpty then (f, true)
  else if env.deleteBatchCount < f.writeBatch.length ∨ force = true then
    if f.hasEngine && env.flushOk then ({ f with writeBatch := [], flushed := f.flushed ++ f.writeBatch }, true)
    else ({ f with writeBatch := [], tasks := f.tasks ++ [.orphanVersions f.writeBatch] }, !f.hasEngine)
  else (f, true)

/-- The part of `do_filter` for a key that is not the current one. -/
def switchKey (key : Bytes) : WriteCompactionFilter :=
  let g :=
    if f.mvccDeletionOverlaps = some 0 then
      let g := f.handleBottommostDelete
      if env.deleteBatchCount ≤ g.mvccDeletions.length then g.gcMvccDeletions else g
    else f
  { g with mvccDeletionOverlaps := none, mvccKeyPrefix := some key, removeOlder := false }

def moveTo (key : Bytes) : WriteCompactionFilter :=
  if f.mvccKeyPrefix ≠ some key then f.switchKey env key
  else { f with mvccDeletionOverlaps := f.mvccDeletionOverlaps.map (· + 1) }

def meet (write : Write) : WriteCompactionFilter :=
  if f.removeOlder then f
  else match write.writeType with
    | .rollback | .lock => f
    | .put => { f with removeOlder := true }
    | .delete =>
      { f with
        removeOlder := true
        mvccDeletionOverlaps := if f.isBottommostLevel then some 0 else f.mvccDeletionOverlaps }

def handleFilteredWrite (v : Version) : WriteCompactionFilter :=
  if v.write.inDefault then { f with writeBatch := f.writeBatch ++ [(v.key, v.write.startTs)] } else f

/-- `none` is an error. -/
def doFilter (v : Version) : WriteCompactionFilter × Option Decision :=
  if f.safePoint < v.commitTs then (f, some .keep)
  else
    let f := f.moveTo env v.key
    let filtered := f.removeOlder || !v.write.isData
    let f := f.meet v.write
    if !filtered then (f, some .keep)
    else
      let r := (f.handleFilteredWrite v).flushPendingWritesIfNeed env false
      (r.1, if r.2 then
          some (if f.removeOlder then .removeAndSkipUntil v.key (v.commitTs - 1) else .remove)
        else none)

def featuredFilter (v : Version) : WriteCompactionFilter × Decision :=
  if f.encounteredErrors then (f, .keep)
  else match f.doFilter env v with
    | (f, some decision) => (f, decision)
    | (f, none) => ({ f with encounteredErrors := true }, .keep)

def drop : WriteCompactionFilter :=
  let f := if f.mvccDeletionOverlaps = some 0 then f.handleBottommostDelete else f
  (f.gcMvccDeletions.flushPendingWritesIfNeed env true).1

end WriteCompactionFilter

def skips (skipUntil : Option (Bytes × Nat)) (v : Version) : Bool :=
  match skipUntil with
  | some (key, ts) => v.key = key && decide (ts < v.commitTs)
  | none => false

/-- What the engine does of a compaction, with the records that are not in its output. -/
def filterFrom : WriteCompactionFilter → Option (Bytes × Nat) → List (Version × FlushEnv) →
    WriteCompactionFilter × List Version
  | f, _, [] => (f, [])
  | f, skipUntil, (v, env) :: rest =>
    if skips skipUntil v then
      let r := filterFrom f skipUntil rest
      (r.1, v :: r.2)
    else match f.featuredFilter env v with
      | (f, .keep) => filterFrom f none rest
      | (f, .remove) =>
        let r := filterFrom f none rest
        (r.1, v :: r.2)
      | (f, .removeAndSkipUntil key ts) =>
        let r := filterFrom f (some (key, ts)) rest
        (r.1, v :: r.2)

/-! ## The store -/

structure Compaction where
  safePoint : Nat
  hasEngine : Bool
  isBottommostLevel : Bool
  input : List (Version × FlushEnv)
  last : FlushEnv

structure GcStore where
  keys : Bytes → KeyState
  tasks : List GcTask

def modifiesOf (ms : List (Bytes × Modify)) (key : Bytes) : List Modify :=
  ms.filterMap fun m => if m.1 = key then some m.2 else none

def GcStore.apply (s : GcStore) (ms : List (Bytes × Modify)) : GcStore :=
  { s with keys := fun key => (s.keys key).apply (modifiesOf ms key) }

def deleteValues (wb : List (Bytes × Nat)) : List (Bytes × Modify) := wb.map fun x => (x.1, .deleteValue x.2)

def Compaction.run (c : Compaction) : WriteCompactionFilter × List Version :=
  let r := filterFrom (.new c.safePoint c.hasEngine c.isBottommostLevel) none c.input
  (r.1.drop c.last, r.2)

def Compaction.modifies (c : Compaction) : List (Bytes × Modify) :=
  c.run.2.map (fun v => (v.key, Modify.deleteWrite v.commitTs)) ++ deleteValues c.run.1.flushed

inductive GcEvent
  | gc (key : Bytes) (safePoint keySize writeSize : Nat)
  | compact (c : Compaction)
  | orphanVersions (wb : List (Bytes × Nat))

def GcStore.run (s : GcStore) : GcEvent → GcStore
  | .gc key safePoint keySize writeSize =>
    s.apply ((gc keySize writeSize (s.keys key) safePoint).1.map fun m => (key, m))
  | .compact c =>
    let s' := s.apply c.modifies
    { s' with tasks := s.tasks ++ c.run.1.tasks }
  | .orphanVersions wb => s.apply (deleteValues wb)

/-- What the events are: gc up to the safe point `p`, compactions of what is there, tasks that were scheduled. -/
def GcEvent.Enabled (p : Nat) (s : GcStore) : GcEvent → Prop
  | .gc _ safePoint _ _ => safePoint ≤ p
  | .compact c => c.safePoint ≤ p ∧
      (∀ x ∈ c.input, (x.1.commitTs, x.1.write) ∈ (s.keys x.1.key).writes.entries) ∧
      c.input.Pairwise fun x y => x.1.key = y.1.key → y.1.commitTs < x.1.commitTs
  | .orphanVersions wb => .orphanVersions wb ∈ s.tasks

/-- No write of a batch fails in the middle of a compaction. -/
def GcEvent.Clean : GcEvent → Prop
  | .compact c => ∀ x ∈ c.input, x.2.flushOk = true
  | _ => True

/-! ## What the filter deletes is covered -/

namespace WriteCompactionFilter

/-- A value that the filter deletes, or leaves to the GC worker, or has yet to. -/
def Pending (f : WriteCompactionFilter) (x : Bytes × Nat) : Prop :=
  x ∈ f.writeBatch ∨ x ∈ f.flushed ∨ ∃ wb, .orphanVersions wb ∈ f.tasks ∧ x ∈ wb

structure Follows (f g : WriteCompactionFilter) : Prop where
  safePoint : g.safePoint = f.safePoint
  removeOlder : g.removeOlder = f.removeOlder
  mvccKeyPrefix : g.mvccKeyPrefix = f.mvccKeyPrefix
  pending : ∀ x, g.Pending x → f.Pending x

section

variable (f : WriteCompactionFilter)
include f

theorem follows_handleBottommostDelete : f.Follows f.handleBottommostDelete :=
  ⟨rfl, rfl, rfl, fun _ h => h⟩

theorem follows_gcMvccDeletions : f.Follows f.gcMvccDeletions := by
  unfold gcMvccDeletions
  split
  · exact ⟨rfl, rfl, rfl, fun _ h => h⟩
  refine ⟨rfl, rfl, rfl, fun x h => ?_⟩
  rcases h with h | h | ⟨wb, hwb, hx⟩
  · exact .inl h
  · exact .inr (.inl h)
  simp only [mem_append, mem_singleton, reduceCtorEq, or_false] at hwb
  exact .inr (.inr ⟨wb, hwb, hx⟩)

theorem follows_flush (env : FlushEnv) (force : Bool) :
    f.Follows (f.flushPendingWritesIfNeed env force).1 := by
  unfold flushPendingWritesIfNeed
  split
  · exact ⟨rfl, rfl, rfl, fun _ h => h⟩
  split
  · split
    · refine ⟨rfl, rfl, rfl, fun x h => ?_⟩
      rcases h with h | h | h
      · cases h
      · rcases mem_append.1 h with h | h
        · exact .inr (.inl h)
        · exact .inl h
      · exact .inr (.inr h)
    · refine ⟨rfl, rfl, rfl, fun x h => ?_⟩
      rcases h with h | h | ⟨wb, hwb, hx⟩
      · cases h
      · exact .inr (.inl h)
      rcases mem_append.1 hwb with hwb | hwb
      · exact .inr (.inr ⟨wb, hwb, hx⟩)
      cases mem_singleton.1 hwb
      exact .inl hx
  · exact ⟨rfl, rfl, rfl, fun _ h => h⟩

omit f in
theorem flush_ok {f : WriteCompactionFilter} {env : FlushEnv} {force : Bool} (h : env.flushOk = true) :
    (f.flushPendingWritesIfNeed env force).2 = true := by
  unfold flushPendingWritesIfNeed
  cases f.hasEngine <;> grind

theorem moveTo_spec (env : FlushEnv) (key : Bytes) :
    (f.moveTo env key).safePoint = f.safePoint ∧ (f.moveTo env key).mvccKeyPrefix = some key ∧
      ((f.moveTo env key).removeOlder = true → f.removeOlder = true ∧ f.mvccKeyPrefix = some key) ∧
      ∀ x, (f.moveTo env key).Pending x → f.Pending x := by
  unfold moveTo
  by_cases hkey : f.mvccKeyPrefix = some key
  · rw [if_neg (not_not.2 hkey)]
    exact ⟨rfl, hkey, fun h => ⟨h, hkey⟩, fun _ h => h⟩
  rw [if_pos hkey]
  unfold switchKey
  dsimp only
  split
  · have hbottom := f.follows_handleBottommostDelete
    have hgc := f.handleBottommostDelete.follows_gcMvccDeletions
    split
    · exact ⟨hgc.safePoint, rfl, nofun, fun x h => hbottom.pending x (hgc.pending x h)⟩
    · exact ⟨rfl, rfl, nofun, hbottom.pending⟩
  · exact ⟨rfl, rfl, nofun, fun _ h => h⟩

theorem meet_spec (write : Write) :
    (f.meet write).safePoint = f.safePoint ∧ (f.meet write).mvccKeyPrefix = f.mvccKeyPrefix ∧
      ((f.meet write).removeOlder = true → f.removeOlder = true ∨ write.isData = true) ∧
      ∀ x, (f.meet write).Pending x → f.Pending x := by
  unfold meet
  by_cases hold : f.removeOlder = true
  · rw [if_pos hold]
    exact ⟨rfl, rfl, .inl, fun _ h => h⟩
  rw [if_neg hold]
  cases htype : write.writeType with
  | put => exact ⟨rfl, rfl, fun _ => .inr (isData_of_put htype), fun _ h => h⟩
  | delete => exact ⟨rfl, rfl, fun _ => .inr (by simp [Write.isData, htype]), fun _ h => h⟩
  | _ => exact ⟨rfl, rfl, .inl, fun _ h => h⟩

theorem handleFilteredWrite_spec (v : Version) :
    (f.handleFilteredWrite v).safePoint = f.safePoint ∧ (f.handleFilteredWrite v).mvccKeyPrefix = f.mvccKeyPrefix ∧
      (f.handleFilteredWrite v).removeOlder = f.removeOlder ∧
      ∀ x, (f.handleFilteredWrite v).Pending x →
        f.Pending x ∨ v.write.inDefault = true ∧ x = (v.key, v.write.startTs) := by
  unfold handleFilteredWrite
  split
  · rename_i hdef
    refine ⟨rfl, rfl, rfl, fun x h => ?_⟩
    rcases h with h | h
    · rcases mem_append.1 h with h | h
      · exact .inl (.inl h)
      · exact .inr ⟨hdef, mem_singleton.1 h⟩
    · exact .inl (.inr h)
  · exact ⟨rfl, rfl, rfl, fun _ h => .inl h⟩

end

/-- The filter removes older versions only if it has met a PUT or DELETE of the key that covers them. -/
def Covers (f : WriteCompactionFilter) (keys : Bytes → KeyState) (rest : List (Version × FlushEnv)) : Prop :=
  f.removeOlder = true → ∃ key d, f.mvccKeyPrefix = some key ∧ d ∈ (keys key).writes.entries ∧ d.2.isData = true ∧
    d.1 ≤ f.safePoint ∧ ∀ x ∈ rest, x.1.key = key → x.1.commitTs < d.1

def CoveredIn (keys : Bytes → KeyState) (p : Nat) (v : Version) : Prop :=
  Covered (keys v.key).writes.entries p (v.commitTs, v.write)

/-- **What the filter says of one record.**  A value comes to the batch only with its record, which is deleted unless
the batch cannot be written. -/
structure Filters (keys : Bytes → KeyState) (rest : List (Version × FlushEnv)) (env : FlushEnv) (v : Version)
    (f g : WriteCompactionFilter) (decision : Decision) : Prop where
  safePoint : g.safePoint = f.safePoint
  covers : g.Covers keys rest
  pending : ∀ x, g.Pending x → f.Pending x ∨ x = (v.key, v.write.startTs) ∧ v.write.inDefault = true ∧
    CoveredIn keys f.safePoint v ∧ (env.flushOk = true → decision ≠ .keep)
  removes : decision ≠ .keep → v.commitTs ≤ f.safePoint ∧ (v.write.isData = false ∨ CoveredIn keys f.safePoint v)
  skips : ∀ key ts, decision = .removeAndSkipUntil key ts → key = v.key ∧ ts = v.commitTs - 1

variable {keys : Bytes → KeyState} {rest : List (Version × FlushEnv)} {env : FlushEnv} {v : Version}
  {f : WriteCompactionFilter}

theorem Covers.tail (h : f.Covers keys ((v, env) :: rest)) : f.Covers keys rest := by
  intro hold
  obtain ⟨key, d, hkey, hd, hdata, hle, hlt⟩ := h hold
  exact ⟨key, d, hkey, hd, hdata, hle, fun x hx => hlt x (mem_cons_of_mem _ hx)⟩

section

variable (hf : f.Covers keys ((v, env) :: rest)) (hv : (v.commitTs, v.write) ∈ (keys v.key).writes.entries)
  (hsorted : ∀ x ∈ rest, v.key = x.1.key → x.1.commitTs < v.commitTs)
include hf hv hsorted

theorem doFilter_spec :
    ∃ g decision, (f.doFilter env v = (g, some decision) ∨
        f.doFilter env v = (g, none) ∧ decision = .keep ∧ env.flushOk = false) ∧
      Filters keys rest env v f g decision := by
  unfold doFilter
  by_cases hsp : f.safePoint < v.commitTs
  · rw [if_pos hsp]
    exact ⟨f, .keep, .inl rfl, rfl, hf.tail, fun _ h => .inl h, absurd rfl, nofun⟩
  rw [if_neg hsp]
  have hle : v.commitTs ≤ f.safePoint := not_lt.1 hsp
  obtain ⟨hmsp, hmkey, hmold, hmpend⟩ := f.moveTo_spec env v.key
  generalize f.moveTo env v.key = f₁ at hmsp hmkey hmold hmpend ⊢
  obtain ⟨hesp, hekey, heold, hepend⟩ := f₁.meet_spec v.write
  -- what is covered by a version met before
  have hcovered : f₁.removeOlder = true → CoveredIn keys f.safePoint v := by
    intro hold
    obtain ⟨hold, hprefix⟩ := hmold hold
    obtain ⟨key, d, hkey, hd, hdata, hdle, hlt⟩ := hf hold
    have hk : key = v.key := Option.some.inj (hkey.symm.trans hprefix)
    subst hk
    exact ⟨d, hd, hdata, hlt _ mem_cons_self rfl, hdle⟩
  have hcovers : (f₁.meet v.write).Covers keys rest := by
    intro hold
    rw [hekey, hesp, hmsp, hmkey]
    rcases heold hold with hold | hdata
    · obtain ⟨hold, hprefix⟩ := hmold hold
      obtain ⟨key, d, hkey, hd⟩ := hf.tail hold
      exact ⟨key, d, hprefix.symm.trans hkey, hd⟩
    · exact ⟨v.key, (v.commitTs, v.write), rfl, hv, hdata, hle, fun x hx hxk => hsorted x hx hxk.symm⟩
  dsimp only
  generalize f₁.meet v.write = f₂ at hesp hekey hepend hcovers ⊢
  by_cases hfiltered : (f₁.removeOlder || !v.write.isData) = true
  · rw [hfiltered, Bool.not_true]
    obtain ⟨hwsp, hwkey, hwold, hwpend⟩ := f₂.handleFilteredWrite_spec v
    have hflush := (f₂.handleFilteredWrite v).follows_flush env false
    have hcov : v.write.inDefault = true → CoveredIn keys f.safePoint v := by
      intro hdef
      have hdata := isData_of_put (Write.inDefault_iff.1 hdef).1
      rw [hdata, Bool.not_true, Bool.or_false] at hfiltered
      exact hcovered hfiltered
    have hcovers' : ((f₂.handleFilteredWrite v).flushPendingWritesIfNeed env false).1.Covers keys rest := by
      unfold Covers
      rw [hflush.removeOlder, hflush.mvccKeyPrefix, hflush.safePoint, hwold, hwkey, hwsp]
      exact hcovers
    have hpend : ∀ x, ((f₂.handleFilteredWrite v).flushPendingWritesIfNeed env false).1.Pending x →
        f.Pending x ∨ v.write.inDefault = true ∧ x = (v.key, v.write.startTs) :=
      fun x hx => (hwpend x (hflush.pending x hx)).imp_left fun h => hmpend x (hepend x h)
    have hremoves : v.commitTs ≤ f.safePoint ∧ (v.write.isData = false ∨ CoveredIn keys f.safePoint v) := by
      refine ⟨hle, ?_⟩
      rcases Bool.or_eq_true_iff.1 hfiltered with hold | hdata
      · exact .inr (hcovered hold)
      · exact .inl (by simpa using hdata)
    have hspg := hflush.safePoint.trans (hwsp.trans (hesp.trans hmsp))
    cases hok : ((f₂.handleFilteredWrite v).flushPendingWritesIfNeed env false).2 with
    | false =>
      have hfail : env.flushOk = false := by
        apply Bool.eq_false_iff.2
        intro hflushOk
        rw [flush_ok hflushOk] at hok
        cases hok
      refine ⟨_, .keep, .inr ⟨rfl, rfl, hfail⟩, hspg, hcovers', fun x hx => ?_, absurd rfl, nofun⟩
      refine (hpend x hx).imp_right fun h => ⟨h.2, h.1, hcov h.1, fun hflushOk => ?_⟩
      rw [hfail] at hflushOk
      cases hflushOk
    | true =>
      refine ⟨_, _, .inl rfl, hspg, hcovers', fun x hx => ?_, fun _ => hremoves, fun key ts h => ?_⟩
      · refine (hpend x hx).imp_right fun h => ⟨h.2, h.1, hcov h.1, fun _ => ?_⟩
        split <;> exact nofun
      · split at h
        · cases h
          exact ⟨rfl, rfl⟩
        · cases h
  · rw [Bool.eq_false_iff.2 hfiltered, Bool.not_false]
    exact ⟨_, .keep, .inl rfl, hesp.trans hmsp, hcovers, fun x hx => .inl (hmpend x (hepend x hx)), absurd rfl, nofun⟩

theorem featuredFilter_spec :
    Filters keys rest env v f (f.featuredFilter env v).1 (f.featuredFilter env v).2 := by
  unfold featuredFilter
  split
  · exact ⟨rfl, hf.tail, fun _ h => .inl h, absurd rfl, nofun⟩
  obtain ⟨g, decision, hdo, hspec⟩ := doFilter_spec hf hv hsorted
  rcases hdo with hdo | ⟨hdo, rfl, -⟩
  · rw [hdo]
    exact hspec
  rw [hdo]
  exact { hspec with skips := nofun }

end

end WriteCompactionFilter

section Compactions

variable {keys : Bytes → KeyState}

open WriteCompactionFilter (CoveredIn Filters)

/-- **What a compaction deletes is covered**, and every value goes with its record unless a batch fails. -/
structure Sifts (keys : Bytes → KeyState) (f : WriteCompactionFilter) (rest : List (Version × FlushEnv))
    (r : WriteCompactionFilter × List Version) : Prop where
  removed : ∀ v ∈ r.2, (v.commitTs, v.write) ∈ (keys v.key).writes.entries ∧ v.commitTs ≤ f.safePoint ∧
    (v.write.isData = false ∨ CoveredIn keys f.safePoint v)
  pending : ∀ x, r.1.Pending x → f.Pending x ∨ ∃ v, (v.commitTs, v.write) ∈ (keys v.key).writes.entries ∧
    x = (v.key, v.write.startTs) ∧ v.write.inDefault = true ∧ CoveredIn keys f.safePoint v ∧
    ((∀ y ∈ rest, y.2.flushOk = true) → v ∈ r.2)

theorem Sifts.cons {rest : List (Version × FlushEnv)} {f g : WriteCompactionFilter} {v : Version} {env : FlushEnv}
    {decision : Decision} {r : WriteCompactionFilter × List Version} (hspec : Filters keys rest env v f g decision)
    (hv : (v.commitTs, v.write) ∈ (keys v.key).writes.entries) (h : Sifts keys g rest r) :
    Sifts keys f ((v, env) :: rest) (r.1, if decision = .keep then r.2 else v :: r.2) := by
  obtain ⟨hremoved, hpending⟩ := h
  rw [hspec.safePoint] at hremoved hpending
  refine ⟨fun w hw => ?_, fun x hx => ?_⟩
  · split at hw
    · exact hremoved w hw
    rename_i hkeep
    rcases mem_cons.1 hw with rfl | hw
    · exact ⟨hv, hspec.removes hkeep⟩
    · exact hremoved w hw
  · rcases hpending x hx with hx | ⟨w, hw, hxw, hdef, hcov, hclean⟩
    · refine (hspec.pending x hx).imp_right fun ⟨hxv, hdef, hcov, hkeep⟩ => ⟨v, hv, hxv, hdef, hcov, fun hall => ?_⟩
      rw [if_neg (hkeep (hall _ mem_cons_self))]
      exact mem_cons_self
    · refine .inr ⟨w, hw, hxw, hdef, hcov, fun hall => ?_⟩
      have hw := hclean fun y hy => hall y (mem_cons_of_mem _ hy)
      split
      · exact hw
      · exact mem_cons_of_mem _ hw

theorem filterFrom_spec : ∀ {rest : List (Version × FlushEnv)} {f : WriteCompactionFilter}
    (skipUntil : Option (Bytes × Nat)), f.Covers keys rest →
    (∀ x ∈ rest, (x.1.commitTs, x.1.write) ∈ (keys x.1.key).writes.entries) →
    (rest.Pairwise fun x y => x.1.key = y.1.key → y.1.commitTs < x.1.commitTs) →
    (∀ x ∈ rest, skips skipUntil x.1 = false) → Sifts keys f rest (filterFrom f skipUntil rest)
  | [], f, _, _, _, _, _ => ⟨nofun, fun _ h => .inl h⟩
  | (v, env) :: rest, f, skipUntil, hf, hmem, hsorted, hskip => by
    obtain ⟨hhead, htail⟩ := pairwise_cons.1 hsorted
    have hv := hmem _ mem_cons_self
    have hspec := featuredFilter_spec hf hv hhead
    have ih := fun skipUntil hskip => filterFrom_spec skipUntil hspec.covers
      (fun x hx => hmem x (mem_cons_of_mem _ hx)) htail hskip
    rw [filterFrom, if_neg (Bool.eq_false_iff.1 (hskip _ mem_cons_self))]
    generalize hr : f.featuredFilter env v = r at hspec ih ⊢
    obtain ⟨g, decision⟩ := r
    cases decision with
    | keep | remove => exact .cons hspec hv (ih none fun _ _ => rfl)
    | removeAndSkipUntil key ts =>
      obtain ⟨rfl, rfl⟩ := hspec.skips key ts rfl
      refine .cons hspec hv (ih _ fun x hx => ?_)
      -- the next version of the key is not in front of the one that is skipped to
      simp only [skips, Bool.and_eq_false_imp, decide_eq_true_eq, decide_eq_false_iff_not]
      intro hkey
      have hlt : x.1.commitTs < v.commitTs := hhead x hx hkey.symm
      omega

variable {key : Bytes} {m : Modify}

theorem mem_modifiesOf {ms : List (Bytes × Modify)} :
    m ∈ modifiesOf ms key ↔ (key, m) ∈ ms := by
  simp [modifiesOf]

theorem mem_deleteValues {wb : List (Bytes × Nat)} :
    (key, m) ∈ deleteValues wb ↔ ∃ s, (key, s) ∈ wb ∧ m = .deleteValue s := by
  unfold deleteValues
  rw [mem_map]
  constructor
  · rintro ⟨⟨key', s⟩, hmem, heq⟩
    cases heq
    exact ⟨s, hmem, rfl⟩
  · rintro ⟨s, hmem, rfl⟩
    exact ⟨(key, s), hmem, rfl⟩

theorem mem_modifies {c : Compaction} : (key, m) ∈ c.modifies ↔
    (∃ v ∈ c.run.2, v.key = key ∧ m = .deleteWrite v.commitTs) ∨
      ∃ s, (key, s) ∈ c.run.1.flushed ∧ m = .deleteValue s := by
  unfold Compaction.modifies
  rw [mem_append, mem_deleteValues, mem_map]
  refine or_congr_left ⟨?_, ?_⟩
  · rintro ⟨v, hv, heq⟩
    cases heq
    exact ⟨v, hv, rfl, rfl⟩
  · rintro ⟨v, hv, rfl, rfl⟩
    exact ⟨v, hv, rfl⟩

theorem follows_drop {f : WriteCompactionFilter} {env : FlushEnv} {x : Bytes × Nat} (h : (f.drop env).Pending x) :
    f.Pending x := by
  have hflush := (follows_flush _ env true).pending x h
  have hgc := (follows_gcMvccDeletions _).pending x hflush
  split at hgc
  · exact (follows_handleBottommostDelete f).pending x hgc
  · exact hgc

variable {c : Compaction} (hmem : ∀ x ∈ c.input, (x.1.commitTs, x.1.write) ∈ (keys x.1.key).writes.entries)
  (hsorted : c.input.Pairwise fun x y => x.1.key = y.1.key → y.1.commitTs < x.1.commitTs)

include hmem hsorted in
theorem sifts_run : Sifts keys (.new c.safePoint c.hasEngine c.isBottommostLevel) c.input c.run := by
  have hsifts := filterFrom_spec (f := .new c.safePoint c.hasEngine c.isBottommostLevel) none (fun h => nomatch h) hmem
    hsorted fun _ _ => rfl
  exact ⟨hsifts.removed, fun x hx => hsifts.pending x (follows_drop hx)⟩

theorem not_pending_new {safePoint : Nat} {hasEngine isBottommostLevel : Bool} {x : Bytes × Nat} :
    ¬ (new safePoint hasEngine isBottommostLevel).Pending x := by
  rintro (h | h | ⟨wb, hwb, -⟩)
  · cases h
  · cases h
  · cases hwb

include hmem hsorted in
theorem deletes_compaction {exact : Prop} (hclean : exact → ∀ y ∈ c.input, y.2.flushOk = true) (key : Bytes) :
    Deletes c.safePoint exact (keys key).writes.entries (modifiesOf c.modifies key) := by
  obtain ⟨hremoved, hpending⟩ := sifts_run hmem hsorted
  refine ⟨fun m hm => ?_, fun t ht => ?_, fun s hs => ?_⟩
  · rcases mem_modifies.1 (mem_modifiesOf.1 hm) with ⟨_, _, _, rfl⟩ | ⟨_, _, rfl⟩ <;> trivial
  · rcases mem_modifies.1 (mem_modifiesOf.1 ht) with ⟨v, hv, rfl, heq⟩ | ⟨_, _, heq⟩
    · cases heq
      obtain ⟨hvmem, hle, hcase⟩ := hremoved v hv
      exact ⟨v.write, hvmem, hle, hcase.imp_right .inl⟩
    · cases heq
  · rcases mem_modifies.1 (mem_modifiesOf.1 hs) with ⟨_, _, _, heq⟩ | ⟨s', hs', heq⟩
    · cases heq
    cases heq
    obtain ⟨v, hv, heq, hdef, hcov, hgone⟩ := (hpending _ (.inr (.inl hs'))).resolve_left not_pending_new
    cases heq
    refine ⟨_, hv, hdef, rfl, hcov, fun hexact => mem_modifiesOf.2 (mem_modifies.2 (.inl ?_))⟩
    exact ⟨v, hgone (hclean hexact), rfl, rfl⟩

end Compactions

/-! ## Every sequence of collections -/

/-- The values of the tasks that are left to the GC worker, and what was collected of each key. -/
structure CollectedStore (p : Nat) (exact : Prop) (s s' : GcStore) : Prop where
  keys : ∀ key, Collected p exact (s.keys key) (s'.keys key)
  orphans : ∀ wb, .orphanVersions wb ∈ s'.tasks → ∀ x ∈ wb, ∃ e ∈ (s.keys x.1).writes.entries,
    e.2.inDefault = true ∧ e.2.startTs = x.2 ∧ Covered (s.keys x.1).writes.entries p e ∧
      (exact → e ∉ (s'.keys x.1).writes.entries)

variable {p : Nat} {exact : Prop}

theorem Collected.deleteValues {k k' : KeyState} (h : Collected p exact k k')
    {ms : List Modify} (hms : ∀ m ∈ ms, ∃ e ∈ k.writes.entries, m = .deleteValue e.2.startTs ∧ e.2.inDefault = true ∧
      Covered k.writes.entries p e ∧ (exact → e ∉ k'.writes.entries)) : Collected p exact k (k'.apply ms) := by
  have hdel : ∀ m ∈ ms, m.IsDelete := by
    intro m hm
    obtain ⟨_, _, rfl, -⟩ := hms m hm
    trivial
  obtain ⟨hlock, hwrites, hvalues⟩ := apply_of_isDelete (k := k') hdel
  have hsame : ∀ e, e ∈ (k'.apply ms).writes.entries ↔ e ∈ k'.writes.entries := by
    intro e
    rw [hwrites]
    refine and_iff_left fun hmem => ?_
    obtain ⟨_, _, heq, -⟩ := hms _ hmem
    cases heq
  refine ⟨hlock.trans h.lock, fun e he => h.sub e ((hsame e).1 he), fun e he hlt => (hsame e).2 (h.newer e he hlt),
    fun d hd => ?_, fun s hs => ?_⟩
  · exact (h.latest d hd).imp (hsame d).2 fun hdel => ⟨hdel.1, fun e he => hdel.2 e ((hsame e).1 he)⟩
  · by_cases hmem : .deleteValue s ∈ ms
    · obtain ⟨e, he, heq, hdef, hcov, hgone⟩ := hms _ hmem
      cases heq
      exact ⟨e, he, hdef, rfl, hcov, fun hexact hmem => hgone hexact ((hsame e).1 hmem)⟩
    · rw [hvalues, if_neg hmem] at hs
      exact exists_put_mono (Subset.refl _) le_rfl (fun e => mt (hsame e).1) (h.values s hs)

namespace CollectedStore

variable {p : Nat} {exact : Prop} {s s' : GcStore}

section

variable (h : CollectedStore p exact s s')
include h

theorem gc {safePoint : Nat} (hp : safePoint ≤ p) (key : Bytes)
    (keySize writeSize : Nat) : CollectedStore p exact s (s'.run (.gc key safePoint keySize writeSize)) := by
  have hstep : ∀ key', Collected p exact (s'.keys key')
      ((s'.run (.gc key safePoint keySize writeSize)).keys key') := by
    intro key'
    unfold GcStore.run GcStore.apply
    dsimp only
    by_cases hkey : key' = key
    · subst hkey
      have hmods : modifiesOf ((Mvcc.gc keySize writeSize (s'.keys key') safePoint).1.map fun m => (key', m)) key' =
          (Mvcc.gc keySize writeSize (s'.keys key') safePoint).1 := by
        unfold modifiesOf
        simp
      rw [hmods]
      exact ((deletes_gc keySize writeSize (s'.keys key') safePoint).mono hp).collected
    · have hmods : modifiesOf ((Mvcc.gc keySize writeSize (s'.keys key) safePoint).1.map fun m => (key, m)) key' = [] := by
        unfold modifiesOf
        simp [Ne.symm hkey]
      rw [hmods]
      exact Collected.refl p exact _
  refine ⟨fun key' => (h.keys key').trans (hstep key'), fun wb hwb x hx => ?_⟩
  exact exists_put_mono (Subset.refl _) le_rfl (fun e => mt ((hstep x.1).sub e)) (h.orphans wb hwb x hx)

theorem compact {c : Compaction} (hok : (GcEvent.compact c).Enabled p s')
    (hclean : exact → (GcEvent.compact c).Clean) : CollectedStore p exact s (s'.run (.compact c)) := by
  obtain ⟨hp, hmem, hsorted⟩ := hok
  have hdeletes := deletes_compaction hmem hsorted hclean
  have hstep : ∀ key, Collected p exact (s'.keys key) ((s'.run (.compact c)).keys key) :=
    fun key => ((hdeletes key).mono hp).collected
  refine ⟨fun key => (h.keys key).trans (hstep key), fun wb hwb x hx => ?_⟩
  rcases mem_append.1 hwb with hwb | hwb
  · exact exists_put_mono (Subset.refl _) le_rfl (fun e => mt ((hstep x.1).sub e)) (h.orphans wb hwb x hx)
  obtain ⟨v, hv, rfl, hdef, hcov, hgone⟩ :=
    ((sifts_run hmem hsorted).pending x (.inr (.inr ⟨wb, hwb, hx⟩))).resolve_left not_pending_new
  refine ⟨_, (h.keys v.key).sub _ hv, hdef, rfl, Covered.mono hcov (h.keys v.key).sub hp, fun hexact hleft => ?_⟩
  have hdel : .deleteWrite v.commitTs ∈ modifiesOf c.modifies v.key :=
    mem_modifiesOf.2 (mem_modifies.2 (.inl ⟨v, hgone (hclean hexact), rfl, rfl⟩))
  exact (((apply_of_isDelete (hdeletes v.key).isDelete).2.1 _).1 hleft).2 hdel

theorem orphanVersions {wb : List (Bytes × Nat)}
    (hwb : .orphanVersions wb ∈ s'.tasks) : CollectedStore p exact s (s'.run (.orphanVersions wb)) := by
  have hms : ∀ key, ∀ m ∈ modifiesOf (Mvcc.deleteValues wb) key, ∃ e ∈ (s.keys key).writes.entries,
      m = .deleteValue e.2.startTs ∧ e.2.inDefault = true ∧ Covered (s.keys key).writes.entries p e ∧
        (exact → e ∉ (s'.keys key).writes.entries) := by
    intro key m hm
    obtain ⟨t, ht, rfl⟩ := mem_deleteValues.1 (mem_modifiesOf.1 hm)
    obtain ⟨e, he, hdef, rfl, hrest⟩ := h.orphans wb hwb _ ht
    exact ⟨e, he, rfl, hdef, hrest⟩
  refine ⟨fun key => (h.keys key).deleteValues (hms key), fun wb' hwb' x hx => ?_⟩
  refine exists_put_mono (Subset.refl _) le_rfl (fun e => mt fun hmem => ?_) (h.orphans wb' hwb' x hx)
  have hdel : ∀ m ∈ modifiesOf (Mvcc.deleteValues wb) x.1, m.IsDelete := by
    intro m hm
    obtain ⟨_, _, rfl, -⟩ := hms x.1 m hm
    trivial
  exact (((apply_of_isDelete hdel).2.1 e).1 hmem).1

end

end CollectedStore

def GcStore.Step (s : GcStore) (ev : GcEvent) (s' : GcStore) : Prop := s' = s.run ev

variable {l : List GcEvent}

theorem collected_of_run {s s' : GcStore} (htasks : s.tasks = [])
    (hrun : Run GcStore.Step (fun s ev => ev.Enabled p s ∧ (exact → ev.Clean)) s l s') : CollectedStore p exact s s' := by
  have hstart : CollectedStore p exact s s := by
    refine ⟨fun key => Collected.refl p exact _, fun wb hwb => ?_⟩
    rw [htasks] at hwb
    cases hwb
  refine hrun.invariant (fun t ev t' h hok hstep => ?_) hstart
  subst hstep
  cases ev with
  | gc key safePoint keySize writeSize => exact h.gc hok.1 key keySize writeSize
  | compact c => exact h.compact hok.1 hok.2
  | orphanVersions wb => exact h.orphanVersions hok.1

variable {n : Nat}

theorem sorted_manyPuts : ((List.range n).reverse.map fun i =>
    (2 * i + 2, Write.new .put (2 * i + 1) none)).Pairwise fun a b => b.1 < a.1 := by
  simp only [pairwise_map, pairwise_reverse]
  exact pairwise_lt_range.imp fun h => by omega

def manyPuts (n : Nat) : KeyState where
  lock := none
  writes := ⟨(List.range n).reverse.map fun i => (2 * i + 2, Write.new .put (2 * i + 1) none), sorted_manyPuts⟩
  values := (List.range n).foldl (fun m i => AList.insert (2 * i + 1) [1] m) ∅

def manyStore (n : Nat) : GcStore := ⟨fun key => if key = [107] then manyPuts n else .empty, []⟩

def compactAll (n : Nat) (flushOk : Bool) : Compaction where
  safePoint := 1000
  hasEngine := true
  isBottommostLevel := true
  input := (manyPuts n).writes.entries.map fun e => (⟨[107], e.1, e.2⟩, ⟨defaultDeleteBatchCount, flushOk⟩)
  last := ⟨defaultDeleteBatchCount, true⟩

theorem mem_manyPuts {e : Nat × Write} :
    e ∈ (manyPuts n).writes.entries ↔ ∃ i < n, e = (2 * i + 2, Write.new .put (2 * i + 1) none) := by
  unfold manyPuts
  simp only [mem_map, mem_reverse, mem_range]
  exact exists_congr fun i => and_congr_right fun _ => eq_comm

theorem lookup_manyPuts {i : Nat} (hi : i < n) : (manyPuts n).values.lookup (2 * i + 1) = some [1] := by
  unfold manyPuts
  dsimp only
  induction n with
  | zero => omega
  | succ n ih =>
    rw [range_succ, foldl_append]
    simp only [foldl_cons, foldl_nil, Map.lookup_insert]
    by_cases heq : 2 * i + 1 = 2 * n + 1
    · rw [if_pos heq]
    rw [if_neg heq]
    exact ih (by omega)

theorem consistent_manyPuts : Consistent (manyPuts n) := by
  have hdata : ∀ e ∈ (manyPuts n).writes.entries, e.2.isData = true := by
    intro e he
    obtain ⟨i, _, rfl⟩ := mem_manyPuts.1 he
    rfl
  refine ⟨fun e he => ?_, fun e he _ _ => ?_, fun e he hno => ?_, fun e he hno => ?_, fun e he hno => ?_⟩
  · obtain ⟨i, _, rfl⟩ := mem_manyPuts.1 he
    exact Nat.succ_pos _
  · obtain ⟨i, hi, rfl⟩ := mem_manyPuts.1 he
    exact ⟨[1], lookup_manyPuts hi⟩
  all_goals
    rw [hdata e he] at hno
    cases hno

theorem startsOnce_manyPuts : StartsOnce (manyPuts n) := by
  refine ⟨fun e he e' he' _ _ heq => ?_, nofun⟩
  obtain ⟨i, _, rfl⟩ := mem_manyPuts.1 he
  obtain ⟨j, _, rfl⟩ := mem_manyPuts.1 he'
  have hij : 2 * i + 1 = 2 * j + 1 := heq
  have : i = j := by omega
  rw [this]

theorem forall_manyStore {P : KeyState → Prop} (h : P (manyPuts n)) (hempty : P .empty) (key : Bytes) :
    P ((manyStore n).keys key) := by
  unfold manyStore
  by_cases hkey : key = [107]
  · simpa [hkey] using h
  · simpa [hkey] using hempty

theorem consistent_manyStore : ∀ key, Consistent ((manyStore n).keys key) :=
  forall_manyStore consistent_manyPuts ⟨nofun, nofun, nofun, nofun, nofun⟩

theorem startsOnce_manyStore : ∀ key, StartsOnce ((manyStore n).keys key) :=
  forall_manyStore startsOnce_manyPuts ⟨nofun, nofun⟩

theorem enabled_compactAll {flushOk : Bool} : (GcEvent.compact (compactAll n flushOk)).Enabled 1000 (manyStore n) := by
  refine ⟨le_rfl, fun x hx => ?_, ?_⟩
  · obtain ⟨e, he, rfl⟩ := mem_map.1 hx
    exact he
  · unfold compactAll
    rw [pairwise_map]
    refine List.Pairwise.imp ?_ (manyPuts n).writes.sorted
    intro a b h _
    exact h

end Mvcc
end Tikv
