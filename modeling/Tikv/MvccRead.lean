import Mathlib.Data.List.Find
import Tikv.LibCursor
import Tikv.MvccVisible
/-!
# MvccRead — reading one user key (`txn_types::Lock`, `storage::mvcc::PointGetter`)

A read checks the lock of the key, then looks for the newest PUT at its timestamp, past LOCK and Rollback records and along
their `last_change`.  `readKey` says what it is for: the value of the visible version, unless a lock stands in the way.  On a
key with consistent records `PointGetter::get` reads just that (`pointGet_eq_readKey`).
-/
namespace Tikv
namespace Mvcc

open Lib List Write

inductive IsolationLevel
  | si | rc | rcCheckTs
deriving DecidableEq, Repr

def needCheckLocks (isoLevel : IsolationLevel) : Bool := isoLevel = .si || isoLevel = .rcCheckTs

inductive NewerTsCheckState
  | unknown | notMetYet | met
deriving DecidableEq, Repr

/-- The errors of a read, less the keys they name.  `writeConflict` has the reason `RcCheckTs`. -/
inductive ReadError
  | keyIsLocked (lock : Lock)
  | writeConflict (conflictStartTs conflictCommitTs : Nat)
  | defaultNotFound
  | panic (message : String)
deriving DecidableEq

structure ReadConfig where
  ts : Nat
  isolationLevel : IsolationLevel
  omitValue : Bool
  bypassLocks : List Nat
  accessLocks : List Nat

/-! ## Locks -/

def Lock.checkTsConflictSi (lock : Lock) (key : Bytes) (ts : Nat) (bypassLocks : List Nat) : Except ReadError Unit :=
  if ts < lock.ts ∨ lock.lockType = .lock ∨ lock.isPessimisticLock = true then .ok ()
  else if ts < lock.minCommitTs then .ok ()
  else if lock.ts ∈ bypassLocks then .ok ()
  -- a read of the latest version of the primary goes before the transaction
  else if ts = tsMax ∧ key = lock.primary ∧ lock.useAsyncCommit = false ∧ lock.useOnePc = false then .ok ()
  else .error (.keyIsLocked lock)

def Lock.checkTsConflictRcCheckTs (lock : Lock) (bypassLocks : List Nat) : Except ReadError Unit :=
  if lock.lockType = .lock ∨ lock.isPessimisticLock = true then .ok ()
  else if lock.ts ∈ bypassLocks then .ok ()
  else .error (.writeConflict lock.ts 0)

def Lock.checkTsConflict (lock : Lock) (key : Bytes) (cfg : ReadConfig) : Except ReadError Unit :=
  match cfg.isolationLevel with
  | .si => lock.checkTsConflictSi key cfg.ts cfg.bypassLocks
  | .rcCheckTs => lock.checkTsConflictRcCheckTs cfg.bypassLocks
  | .rc => .ok ()

def loadValue (cfg : ReadConfig) (dflt : Nat → Option Bytes) (shortValue : Option Bytes) (startTs : Nat) :
    Except ReadError Bytes :=
  if cfg.omitValue then .ok []
  else match shortValue with
    | some v => .ok v
    | none =>
      match dflt startTs with
      | some v => .ok v
      | none => .error .defaultNotFound

def loadWrite (cfg : ReadConfig) (dflt : Nat → Option Bytes) (w : Write) : Except ReadError (Option Bytes) :=
  (loadValue cfg dflt w.shortValue w.startTs).map some

def loadDataByLock (cfg : ReadConfig) (dflt : Nat → Option Bytes) (lock : Lock) : Except ReadError (Option Bytes) :=
  match lock.lockType with
  | .put => (loadValue cfg dflt lock.shortValue lock.ts).map some
  | .delete => .ok none
  | .lock | .pessimistic => .error (.panic "internal error: entered unreachable code")

/-- What the lock makes of the read: nothing if it does not conflict; a conflicting lock is read through if it is one of
`access_locks`, and is the error of the read otherwise. -/
def readLock (cfg : ReadConfig) (key : Bytes) (dflt : Nat → Option Bytes) (lock : Lock) :
    Option (Except ReadError (Option Bytes)) :=
  match lock.checkTsConflict key cfg with
  | .ok _ => none
  | .error e => some (if lock.ts ∈ cfg.accessLocks then loadDataByLock cfg dflt lock else .error e)

/-! ## Records -/

inductive Verdict
  | value | absent | older
deriving DecidableEq

def Write.verdict (w : Write) (readTs : Nat) : Verdict :=
  if w.checkGcFence readTs = false then .absent
  else match w.writeType with
    | .put => .value
    | .delete => .absent
    | .lock | .rollback => .older

variable {w : Write} {ts : Nat}

theorem Write.verdict_eq_value :
    w.verdict ts = .value ↔ w.writeType = .put ∧ w.checkGcFence ts = true := by
  unfold verdict
  split
  · rename_i hfence
    simp [hfence]
  rename_i hfence
  cases w.writeType <;> simp [Bool.not_eq_false _ ▸ hfence]

theorem Write.verdict_eq_older : w.verdict ts = .older ↔ w.isData = false ∧ w.checkGcFence ts = true := by
  unfold verdict isData
  split
  · rename_i hfence
    simp [hfence]
  rename_i hfence
  cases w.writeType <;> simp [Bool.not_eq_false _ ▸ hfence]

theorem Write.checkGcFence_eq_false :
    w.checkGcFence ts = false ↔ ∃ f, w.gcFence = some f ∧ f ≠ 0 ∧ f ≤ ts := by
  unfold checkGcFence
  cases w.gcFence <;> simp

theorem Write.checkGcFence_of_le {ts' : Nat} (hle : ts ≤ ts') (h : w.checkGcFence ts' = true) :
    w.checkGcFence ts = true := by
  apply Bool.of_not_eq_false
  intro hfalse
  obtain ⟨f, hf, hf0, hfle⟩ := checkGcFence_eq_false.1 hfalse
  rw [checkGcFence_eq_false.2 ⟨f, hf, hf0, hfle.trans hle⟩] at h
  cases h

def pointFrom (cfg : ReadConfig) (v : Versions) (dflt : Nat → Option Bytes) :
    List (Nat × Write) → Except ReadError (Option Bytes)
  | [] => .ok none
  | (_, write) :: older =>
    match write.verdict cfg.ts with
    | .value => loadWrite cfg dflt write
    | .absent => .ok none
    | .older =>
      match write.lastChange with
      | .notExist => .ok none
      | .unknown => pointFrom cfg v dflt older
      | .exist lastChangeTs estimatedVersions =>
        if estimatedVersions < seekBound then pointFrom cfg v dflt older
        else match v.lookup lastChangeTs with
          | none => .ok none
          | some last =>
            if last.isData = false then
              .error (.panic "Write record pointed by last_change_ts should be Put or Delete")
            else match last.verdict cfg.ts with
              | .value => loadWrite cfg dflt last
              | .absent | .older => .ok none

/-- `PointGetter::load_data`.  The newest version is looked at first under `RcCheckTs`, and as long as a newer version is
still to be reported. -/
def pointLoad (cfg : ReadConfig) (newer : NewerTsCheckState) (v : Versions) (dflt : Nat → Option Bytes) :
    Except ReadError (Option Bytes) × NewerTsCheckState :=
  let found := pointFrom cfg v dflt (v.entries.dropWhile fun e => decide (cfg.ts < e.1))
  if newer = .notMetYet ∨ cfg.isolationLevel = .rcCheckTs then
    match newestWrite v with
    | none => (.ok none, newer)
    | some (keyCommitTs, _) =>
      if cfg.ts < keyCommitTs then
        (if cfg.isolationLevel = .rcCheckTs then .error (.writeConflict 0 keyCommitTs) else found,
          if newer = .notMetYet then .met else newer)
      else (found, newer)
  else (found, newer)

def pointGet (cfg : ReadConfig) (newer : NewerTsCheckState) (key : Bytes) (k : KeyState) :
    Except ReadError (Option Bytes) × NewerTsCheckState :=
  if needCheckLocks cfg.isolationLevel then
    match k.lock with
    | none => pointLoad cfg newer k.writes k.values.lookup
    | some lock =>
      let newer := if newer = .notMetYet then .met else newer
      match readLock cfg key k.values.lookup lock with
      | some r => (r, newer)
      | none => pointLoad cfg newer k.writes k.values.lookup
  else pointLoad cfg newer k.writes k.values.lookup

/-! ## What a read is for -/

def heldLock (cfg : ReadConfig) (k : KeyState) : Option Lock :=
  if needCheckLocks cfg.isolationLevel then k.lock else none

def lockRead (cfg : ReadConfig) (key : Bytes) (k : KeyState) : Option (Except ReadError (Option Bytes)) :=
  (heldLock cfg k).bind (readLock cfg key k.values.lookup)

def readVisible (cfg : ReadConfig) (v : Versions) (dflt : Nat → Option Bytes) : Except ReadError (Option Bytes) :=
  match visible v cfg.ts with
  | some (_, w) => loadWrite cfg dflt w
  | none => .ok none

/-- **What a read of the key gives**: what its lock decides, else the value of the visible version. -/
def readKey (cfg : ReadConfig) (key : Bytes) (k : KeyState) : Except ReadError (Option Bytes) :=
  match lockRead cfg key k with
  | some r => r
  | none => readVisible cfg k.writes k.values.lookup

/-- **Consistent records.**  `Exist` names the newest older PUT or DELETE; if that version was collected, no older one is
left.  `NotExist` says that nothing older is visible.  The gc fence of a record names a newer PUT or DELETE; if that version
is missing the record counts as deleted, and so does what a reader would find past it. -/
structure Consistent (k : KeyState) : Prop where
  commitTs_pos : ∀ e ∈ k.writes.entries, 0 < e.1
  value : ∀ e ∈ k.writes.entries, e.2.writeType = .put → e.2.shortValue = none →
    ∃ v, k.values.lookup e.2.startTs = some v
  exist : ∀ e ∈ k.writes.entries, e.2.isData = false → ∀ t n, e.2.lastChange = .exist t n → t < e.1 ∧
    ((∃ w, (t, w) ∈ k.writes.entries ∧ w.isData = true ∧
        ∀ e' ∈ k.writes.entries, e'.1 < e.1 → e'.2.isData = true → e'.1 ≤ t) ∨
      (∀ w, (t, w) ∉ k.writes.entries) ∧ ∀ e' ∈ k.writes.entries, e'.1 < e.1 → e'.2.isData = false)
  notExist : ∀ e ∈ k.writes.entries, e.2.isData = false → e.2.lastChange = .notExist → visible k.writes e.1 = none
  gcFence : ∀ e ∈ k.writes.entries, e.2.isData = false → ∀ f, e.2.gcFence = some f → f ≠ 0 →
    (∃ w, (f, w) ∈ k.writes.entries ∧ w.isData = true ∧ e.1 < f) ∨ visible k.writes (max e.1 f) = none

structure ConsistentRecord (v : Versions) (e : Nat × Write) : Prop where
  exist : ∀ t n, e.2.lastChange = .exist t n → t < e.1 ∧
    ((∃ w, (t, w) ∈ v.entries ∧ w.isData = true ∧ ∀ e' ∈ v.entries, e'.1 < e.1 → e'.2.isData = true → e'.1 ≤ t) ∨
      (∀ w, (t, w) ∉ v.entries) ∧ ∀ e' ∈ v.entries, e'.1 < e.1 → e'.2.isData = false)
  notExist : e.2.lastChange = .notExist → visible v e.1 = none
  gcFence : ∀ f, e.2.gcFence = some f → f ≠ 0 →
    (∃ w, (f, w) ∈ v.entries ∧ w.isData = true ∧ e.1 < f) ∨ visible v (max e.1 f) = none

/-- **Consistent where a read at `ts` comes to**: no PUT or DELETE stands before the record. -/
def ConsistentAt (v : Versions) (ts : Nat) : Prop :=
  ∀ e ∈ v.entries, e.2.isData = false → e.1 ≤ ts → (∀ e' ∈ v.entries, e'.1 ≤ ts → e'.2.isData = true → e'.1 < e.1) →
    ConsistentRecord v e

variable {k : KeyState} {e : Nat × Write}

theorem Consistent.record (h : Consistent k) (he : e ∈ k.writes.entries)
    (hdata : e.2.isData = false) : ConsistentRecord k.writes e :=
  ⟨h.exist e he hdata, h.notExist e he hdata, h.gcFence e he hdata⟩

theorem Consistent.consistentAt (h : Consistent k) (ts : Nat) : ConsistentAt k.writes ts :=
  fun _ he hdata _ _ => h.record he hdata

variable {v : Versions}

theorem visible_eq_none_of_verdict (h : latestData v ts = some e)
    (hv : e.2.verdict ts ≠ .value) : visible v ts = none := by
  apply Option.eq_none_iff_forall_ne_some.2
  intro x hx
  obtain ⟨hlatest, hval⟩ := visible_eq_some.1 hx
  rw [h] at hlatest
  cases hlatest
  exact hv (verdict_eq_value.2 hval)

/-! ## Walking down the chain -/

/-- A walk for the version at `ts` has come down to `d` and has passed no PUT or DELETE. -/
structure CameTo (v : Versions) (ts : Nat) (d : List (Nat × Write)) : Prop where
  isSuffix : d <:+ v.entries
  le : ∀ e ∈ d, e.1 ≤ ts
  latest : latestData v ts = d.find? fun e => e.2.isData

theorem find?_dropWhile_sorted (ts : Nat) : ∀ {l : List (Nat × Write)}, (l.Pairwise fun a b => b.1 < a.1) →
    l.find? (fun e => decide (e.1 ≤ ts) && e.2.isData) =
      (l.dropWhile fun e => decide (ts < e.1)).find? fun e => e.2.isData
  | [], _ => rfl
  | a :: l, hl => by
    obtain ⟨hhead, htail⟩ := pairwise_cons.1 hl
    by_cases ha : ts < a.1
    · rw [dropWhile_cons_of_pos (by simpa using ha), find?_cons_of_neg (by simp; omega)]
      exact find?_dropWhile_sorted ts htail
    have hle : ∀ e ∈ a :: l, e.1 ≤ ts :=
      forall_mem_cons.2 ⟨not_lt.1 ha, fun e he => (le_of_lt (hhead e he)).trans (not_lt.1 ha)⟩
    rw [dropWhile_cons_of_neg (by simpa using ha)]
    refine find?_congr fun e he => ?_
    rw [decide_eq_true (hle e he), Bool.true_and]

theorem cameTo_dropWhile (v : Versions) (ts : Nat) :
    CameTo v ts (v.entries.dropWhile fun e => decide (ts < e.1)) where
  isSuffix := dropWhile_suffix _
  le e he := by
    have hdown := v.sorted.imp fun hlt (h : decide (ts < _) = true) => decide_eq_true ((of_decide_eq_true h).trans hlt)
    exact not_lt.1 (of_decide_eq_false (fails_of_mem_dropWhile hdown e he))
  latest := find?_dropWhile_sorted ts v.sorted

namespace CameTo

variable {v : Versions} {ts t : Nat} {d : List (Nat × Write)} {e : Nat × Write}

theorem sorted (h : CameTo v ts d) : d.Pairwise fun a b => b.1 < a.1 := v.sorted.sublist h.isSuffix.sublist

theorem find?_dropWhile : ∀ {l : List (Nat × Write)}, (∀ e ∈ l, t < e.1 → e.2.isData = false) →
    (l.dropWhile fun e => decide (t < e.1)).find? (fun e => e.2.isData) = l.find? fun e => e.2.isData
  | [], _ => rfl
  | a :: l, hl => by
    by_cases ha : t < a.1
    · have hdata := hl a mem_cons_self ha
      rw [dropWhile_cons_of_pos (by simpa using ha), find?_cons_of_neg (by rw [hdata]; decide)]
      exact find?_dropWhile fun e he => hl e (mem_cons_of_mem _ he)
    · rw [dropWhile_cons_of_neg (by simpa using ha)]

section

variable {e' : Nat × Write} (h : CameTo v ts (e :: d)) (hcons : ConsistentAt v ts) (he : e.2.isData = false)
include h

theorem mem : e ∈ v.entries := h.isSuffix.subset mem_cons_self

theorem lt_head (he' : e' ∈ d) : e'.1 < e.1 :=
  (pairwise_cons.1 h.sorted).1 e' he'

include he

theorem next : CameTo v ts d where
  isSuffix := (suffix_cons e d).trans h.isSuffix
  le e' he' := h.le e' (mem_cons_of_mem _ he')
  latest := h.latest.trans (find?_cons_of_neg (by rw [he]; decide))

theorem lt_of_isData (he' : e' ∈ v.entries) (hle : e'.1 ≤ ts) (hdata : e'.2.isData = true) : e'.1 < e.1 := by
  obtain ⟨x, hx, hle⟩ := exists_latestData he' hle hdata
  have hmem := mem_of_find?_eq_some ((h.next he).latest.symm.trans hx)
  exact lt_of_le_of_lt hle (h.lt_head hmem)

theorem seek (ht : ∀ e' ∈ v.entries, e'.1 < e.1 → e'.2.isData = true → e'.1 ≤ t) :
    CameTo v ts ((e :: d).dropWhile fun e => decide (t < e.1)) where
  isSuffix := (dropWhile_suffix _).trans h.isSuffix
  le e' he' := h.le e' ((dropWhile_suffix _).subset he')
  latest := by
    rw [find?_dropWhile, h.latest]
    intro e' he' hlt
    rcases mem_cons.1 he' with rfl | hmem
    · exact he
    apply Bool.eq_false_iff.2
    intro hdata
    have := ht e' (h.isSuffix.subset he') (h.lt_head hmem) hdata
    omega

/-! ### What the walk ends with -/

omit h he in
theorem visible_nil (h : CameTo v ts []) : visible v ts = none := by
  unfold visible
  rw [h.latest]
  rfl

omit he in
theorem visible_of_value (hv : e.2.verdict ts = .value) : visible v ts = some e := by
  obtain ⟨hput, hfence⟩ := verdict_eq_value.1 hv
  refine visible_eq_some.2 ⟨?_, hput, hfence⟩
  rw [h.latest, find?_cons_of_pos (by exact isData_of_put hput)]

theorem visible_of_between (hle : e.1 ≤ t) (hts : t ≤ ts) (hnone : visible v t = none) : visible v ts = none := by
  apply Option.eq_none_iff_forall_ne_some.2
  intro x hx
  obtain ⟨hlatest, hput, hfence⟩ := visible_eq_some.1 hx
  obtain ⟨hmem, hxts, hdata, hmax⟩ := latestData_eq_some.1 hlatest
  have hlt := h.lt_of_isData he hmem hxts hdata
  -- what is visible to the read is older than the record, so it is visible at `t` too
  have hvis : visible v t = some x := by
    refine visible_eq_some.2 ⟨latestData_eq_some.2 ⟨hmem, (le_of_lt hlt).trans hle, hdata, ?_⟩, hput, ?_⟩
    · exact fun e' he' hle' => hmax e' he' (hle'.trans hts)
    · exact checkGcFence_of_le hts hfence
  rw [hnone] at hvis
  cases hvis

include hcons

theorem record : ConsistentRecord v e :=
  hcons e h.mem he (h.le e mem_cons_self) fun _ => h.lt_of_isData he

theorem lookup_of_exist (hlast : e.2.lastChange = .exist t n) :
    (∃ w, v.lookup t = some w ∧ w.isData = true ∧ latestData v ts = some (t, w)) ∨
      v.lookup t = none ∧ visible v ts = none := by
  obtain ⟨hlt, ⟨w, hw, hwdata, hmax⟩ | ⟨hmissing, hno⟩⟩ := (h.record hcons he).exist t n hlast
  · have hle := (le_of_lt hlt).trans (h.le e mem_cons_self)
    refine .inl ⟨w, Chain.lookup_eq_some.2 hw, hwdata, latestData_eq_some.2 ⟨hw, hle, hwdata, fun e' he' hle hdata => ?_⟩⟩
    exact hmax e' he' (h.lt_of_isData he he' hle hdata) hdata
  · have hnone : latestData v ts = none := by
      refine latestData_eq_none.2 fun e' he' hle => Bool.eq_false_iff.2 fun hdata => ?_
      cases (hno e' he' (h.lt_of_isData he he' hle hdata)).symm.trans hdata
    refine .inr ⟨Chain.lookup_eq_none.2 hmissing, ?_⟩
    unfold visible
    rw [hnone]
    rfl

theorem visible_of_notExist (hlast : e.2.lastChange = .notExist) : visible v ts = none :=
  h.visible_of_between he le_rfl (h.le e mem_cons_self) ((h.record hcons he).notExist hlast)

omit he in
/-- A PUT or DELETE that is not a value, or a record without data that is fenced off: nothing older counts. -/
theorem visible_of_absent (hv : e.2.verdict ts = .absent) : visible v ts = none := by
  cases hdata : e.2.isData with
  | true =>
    have hlatest : latestData v ts = some e := by rw [h.latest, find?_cons_of_pos (by exact hdata)]
    exact visible_eq_none_of_verdict hlatest (by rw [hv]; decide)
  | false =>
    have hfence : e.2.checkGcFence ts = false := by
      apply Bool.eq_false_iff.2
      intro hfence
      rw [verdict_eq_older.2 ⟨hdata, hfence⟩] at hv
      cases hv
    obtain ⟨f, hf, hf0, hle⟩ := checkGcFence_eq_false.1 hfence
    rcases (h.record hcons hdata).gcFence f hf hf0 with ⟨w, hw, hwdata, hlt⟩ | hnone
    · exact absurd (h.lt_of_isData hdata hw hle hwdata) (lt_asymm hlt)
    have hets := h.le e mem_cons_self
    exact h.visible_of_between hdata (le_max_left _ _) (Nat.max_le.2 ⟨hets, hle⟩) hnone

end

end CameTo

variable {cfg : ReadConfig} {dflt : Nat → Option Bytes} {newer : NewerTsCheckState} {key : Bytes}

theorem readVisible_of_nil (h : v.entries = []) : readVisible cfg v dflt = .ok none := by
  have hvis : visible v cfg.ts = none := by
    unfold visible
    rw [latestData_eq_none.2 (by rw [h]; nofun)]
    rfl
  unfold readVisible
  rw [hvis]

theorem readVisible_of_latestData {t : Nat} (h : latestData v cfg.ts = some (t, w)) :
    readVisible cfg v dflt = match w.verdict cfg.ts with
      | .value => loadWrite cfg dflt w
      | .absent | .older => .ok none := by
  unfold readVisible
  cases hv : w.verdict cfg.ts with
  | value => rw [visible_eq_some.2 ⟨h, verdict_eq_value.1 hv⟩]
  | _ => rw [visible_eq_none_of_verdict h (by rw [hv]; decide)]

theorem pointFrom_eq (hcons : ConsistentAt v cfg.ts) :
    ∀ {d : List (Nat × Write)}, CameTo v cfg.ts d → pointFrom cfg v dflt d = readVisible cfg v dflt
  | [], h => by
    unfold pointFrom readVisible
    rw [h.visible_nil]
  | e :: d, h => by
    unfold pointFrom readVisible
    cases hv : e.2.verdict cfg.ts with
    | value => rw [h.visible_of_value hv]
    | absent => rw [h.visible_of_absent hcons hv]
    | older =>
      obtain ⟨hdata, _⟩ := verdict_eq_older.1 hv
      have hnext : pointFrom cfg v dflt d = readVisible cfg v dflt := pointFrom_eq hcons (h.next hdata)
      cases hlast : e.2.lastChange with
      | unknown => exact hnext
      | notExist => rw [h.visible_of_notExist hcons hdata hlast]
      | exist t n =>
        dsimp only
        split
        · exact hnext
        rcases h.lookup_of_exist hcons hdata hlast with ⟨w, hw, hwdata, hlatest⟩ | ⟨hmissing, hnone⟩
        · rw [hw]
          dsimp only
          rw [if_neg (by rw [hwdata]; decide)]
          exact (readVisible_of_latestData hlatest).symm
        · rw [hmissing, hnone]

theorem pointLoad_eq (hcons : ConsistentAt v cfg.ts) (hiso : cfg.isolationLevel ≠ .rcCheckTs) :
    (pointLoad cfg newer v dflt).1 = readVisible cfg v dflt := by
  have hfound : pointFrom cfg v dflt _ = readVisible cfg v dflt := pointFrom_eq hcons (cameTo_dropWhile v cfg.ts)
  unfold pointLoad
  simp only [hfound]
  split
  · cases hnewest : newestWrite v with
    | none =>
      have hnil : v.entries = [] := head?_eq_none_iff.1 hnewest
      exact (readVisible_of_nil hnil).symm
    | some e =>
      dsimp only
      split
      · rfl
      · rfl
  · rfl

theorem pointGet_fst (cfg : ReadConfig) (newer : NewerTsCheckState) (key : Bytes) (k : KeyState) :
    ∃ newer', (pointGet cfg newer key k).1 = match lockRead cfg key k with
      | some r => r
      | none => (pointLoad cfg newer' k.writes k.values.lookup).1 := by
  unfold pointGet lockRead heldLock
  split
  · cases k.lock with
    | none => exact ⟨newer, rfl⟩
    | some lock =>
      refine ⟨if newer = .notMetYet then .met else newer, ?_⟩
      dsimp only [Option.bind_some]
      cases readLock cfg key k.values.lookup lock <;> rfl
  · exact ⟨newer, rfl⟩

theorem pointGet_eq_readKey (hk : Consistent k) (hiso : cfg.isolationLevel ≠ .rcCheckTs) :
    (pointGet cfg newer key k).1 = readKey cfg key k := by
  obtain ⟨newer', hget⟩ := pointGet_fst cfg newer key k
  rw [hget, pointLoad_eq (hk.consistentAt cfg.ts) hiso]
  rfl

end Mvcc
end Tikv
