import Tikv.LibMap
import Tikv.PcrEvents
import Tikv.TxnWrite
import Mathlib.Data.List.Sort
/-!
# CdcDeltaScan — catching a target up from a timestamp (`pcr_snapshot.rs`)

`scan_delta_entries` walks the write column family and returns the Put and Delete records committed after a timestamp,
with the values the Puts refer to and a tombstone for each Delete.  A target that has the records up to that timestamp
and takes the entries over reads every key at every timestamp as the source does (`mvccRead_delta`): the two agree on
which version of a key a read finds, and on the value it refers to.
-/
namespace Tikv
namespace Cdc

open Lib Codec Txn List Patch Txn.Write

structure KvEngine where
  write : Map Bytes Bytes
  default : Map Bytes Bytes

def encodeBound (pdKey : Bytes) : Bytes := appendTs pdKey 0xffffffffffffffff

def iterFrom (cf : Map Bytes Bytes) (seekTarget : Bytes) : List ((_ : Bytes) × Bytes) :=
  (cf.entries.insertionSort fun a b => a.1 ≤ b.1).dropWhile fun e => decide (e.1 < seekTarget)

abbrev DeltaEntries := List (Bytes × Bytes) × List (Bytes × Bytes × OpType)

def addRecord (default : Map Bytes Bytes) (userKey encodedKey writeBytes : Bytes) (write : Write)
    (acc : DeltaEntries) : DeltaEntries :=
  let defaultKey := appendTs userKey write.startTs
  match write.writeType with
  | .put =>
    let writes := acc.1 ++ [(encodedKey, writeBytes)]
    if write.shortValue.isNone then
      match default.lookup defaultKey with
      | some v => (writes, acc.2 ++ [(defaultKey, v, .put)])
      | none => (writes, acc.2)
    else (writes, acc.2)
  | .delete => (acc.1 ++ [(encodedKey, writeBytes)], acc.2 ++ [(defaultKey, [], .delete)])
  | _ => acc

def scanLoop (default : Map Bytes Bytes) (sinceTs : UInt64) (toKey : Bytes) :
    List ((_ : Bytes) × Bytes) → DeltaEntries → Except String DeltaEntries
  | [], acc => .ok acc
  | ⟨encodedKey, writeBytes⟩ :: es, acc =>
    match decodeTsFrom encodedKey with
    | .error _ => scanLoop default sinceTs toKey es acc
    | .ok commitTs =>
      if commitTs > sinceTs then
        match truncateTsFor encodedKey with
        | .error _ => scanLoop default sinceTs toKey es acc
        | .ok userKey =>
          if !toKey.isEmpty && decide (userKey ≥ toKey) then .ok acc
          else do
            match ← recordOrPanic (Write.parse writeBytes) with
            | none => scanLoop default sinceTs toKey es acc
            | some write =>
              scanLoop default sinceTs toKey es (addRecord default userKey encodedKey writeBytes write acc)
      else scanLoop default sinceTs toKey es acc

def scanDeltaEntries (engine : KvEngine) (sinceTs : UInt64) (fromKey toKey : Bytes) : Except String DeltaEntries :=
  let seekTarget := if fromKey.isEmpty then [] else encodeBound fromKey
  scanLoop engine.default sinceTs toKey (iterFrom engine.write seekTarget) ([], [])

/-! ## Reading versions -/

def KvEngine.store (engine : KvEngine) : Engine
  | (.write, k) => engine.write.lookup k
  | (.default, k) => engine.default.lookup k
  | _ => none

def versionOf (bytes : Option Bytes) : Option Write :=
  match bytes.map Write.parse with
  | some (.ok w) => if w.writeType = .put ∨ w.writeType = .delete then some w else none
  | _ => none

def versionAt (e : Engine) (userKey : Bytes) (ts : UInt64) : Option Write :=
  versionOf (e (.write, appendTs userKey ts))

inductive ReadResult
  | notFound
  | value (v : Bytes)
  | defaultNotFound
deriving DecidableEq, Repr

def readRecord (e : Engine) (userKey : Bytes) (w : Write) : ReadResult :=
  if w.writeType = .delete then .notFound
  else match w.shortValue with
    | some v => .value v.1
    | none =>
      match e (.default, appendTs userKey w.startTs) with
      | some v => .value v
      | none => .defaultNotFound

/-- **An MVCC read**: the latest Put or Delete at or below the timestamp decides. -/
def mvccReadFrom (e : Engine) (userKey : Bytes) : Nat → ReadResult
  | 0 => ((versionAt e userKey 0).map (readRecord e userKey)).getD .notFound
  | n + 1 =>
    match versionAt e userKey (UInt64.ofNat (n + 1)) with
    | some w => readRecord e userKey w
    | none => mvccReadFrom e userKey n

def mvccRead (e : Engine) (userKey : Bytes) (readTs : UInt64) : ReadResult := mvccReadFrom e userKey readTs.toNat

variable {userKey k v : Bytes} {default : Map Bytes Bytes} {sinceTs ts : UInt64} {w : Write} {acc : DeltaEntries}

theorem mvccReadFrom_congr {e e' : Engine} (hv : ∀ ts, versionAt e userKey ts = versionAt e' userKey ts)
    (hr : ∀ ts w, versionAt e' userKey ts = some w → readRecord e userKey w = readRecord e' userKey w) :
    ∀ n, mvccReadFrom e userKey n = mvccReadFrom e' userKey n
  | 0 => by
    unfold mvccReadFrom
    rw [hv]
    cases hw : versionAt e' userKey 0 with
    | none => rfl
    | some w => rw [Option.map_some, Option.map_some, hr 0 w hw]
  | n + 1 => by
    unfold mvccReadFrom
    rw [hv]
    cases hw : versionAt e' userKey (UInt64.ofNat (n + 1)) with
    | none => exact mvccReadFrom_congr hv hr n
    | some w => exact hr _ w hw

/-! ## What the scan returns -/

def deltaOf (default : Map Bytes Bytes) (sinceTs : UInt64) (e : (_ : Bytes) × Bytes) : DeltaEntries :=
  match decodeTsFrom e.1, truncateTsFor e.1, Write.parse e.2 with
  | .ok commitTs, .ok userKey, .ok w =>
    if commitTs > sinceTs then addRecord default userKey e.1 e.2 w ([], []) else ([], [])
  | _, _, _ => ([], [])

theorem addRecord_acc : addRecord default userKey encodedKey writeBytes w acc =
      (acc.1 ++ (addRecord default userKey encodedKey writeBytes w ([], [])).1,
        acc.2 ++ (addRecord default userKey encodedKey writeBytes w ([], [])).2) := by
  unfold addRecord
  cases w.writeType with
  | put =>
    dsimp only
    split
    · split
      · rfl
      · simp
    · simp
  | delete => rfl
  | lock | rollback => simp

variable {e : (_ : Bytes) × Bytes} {es : List ((_ : Bytes) × Bytes)}

theorem scanLoop_cons : scanLoop default sinceTs [] (e :: es) acc = scanLoop default sinceTs [] es
        (acc.1 ++ (deltaOf default sinceTs e).1, acc.2 ++ (deltaOf default sinceTs e).2) ∨
      ∃ m, parse e.2 = .error (.panic m) ∧ scanLoop default sinceTs [] (e :: es) acc = .error m := by
  obtain ⟨k, v⟩ := e
  rw [scanLoop]
  unfold deltaOf
  cases hd : decodeTsFrom k with
  | error err => simp
  | ok ts =>
    obtain ⟨userKey, htr, -⟩ := eq_appendTs hd
    simp only [htr]
    by_cases hts : ts > sinceTs
    · rw [if_pos hts]
      cases hw : parse v with
      | ok w =>
        simp only [if_pos hts]
        exact .inl (congrArg (scanLoop default sinceTs [] es) addRecord_acc)
      | error err =>
        cases err with
        | panic m => exact .inr ⟨m, rfl, rfl⟩
        | _ => simp [recordOrPanic, bind, Except.bind]
    · cases parse v <;> simp [hts]

def NoPanic (es : List ((_ : Bytes) × Bytes)) : Prop := ∀ e ∈ es, ∀ m, Write.parse e.2 ≠ .error (.panic m)

theorem exists_scanLoop : ∀ (es : List ((_ : Bytes) × Bytes))
    (acc : DeltaEntries), NoPanic es → ∃ delta, scanLoop default sinceTs [] es acc = .ok delta
  | [], acc, _ => ⟨acc, rfl⟩
  | e :: es, acc, hp => by
    rcases scanLoop_cons with h | ⟨m, hm, -⟩
    · rw [h]
      exact exists_scanLoop es _ fun e he => hp e (mem_cons_of_mem _ he)
    · exact absurd hm (hp e mem_cons_self m)

theorem scanLoop_ok : ∀ (es : List ((_ : Bytes) × Bytes))
    (acc : DeltaEntries) {delta : DeltaEntries}, scanLoop default sinceTs [] es acc = .ok delta →
      delta = (acc.1 ++ es.flatMap fun e => (deltaOf default sinceTs e).1,
        acc.2 ++ es.flatMap fun e => (deltaOf default sinceTs e).2)
  | [], acc, delta, h => by
    cases h
    simp
  | e :: es, acc, delta, h => by
    rcases scanLoop_cons with hstep | ⟨m, -, herr⟩
    · rw [hstep] at h
      rw [scanLoop_ok es _ h]
      simp
    · rw [herr] at h
      cases h

theorem mem_iterFrom {cf : Map Bytes Bytes} : ⟨k, v⟩ ∈ iterFrom cf [] ↔ cf.lookup k = some v := by
  unfold iterFrom
  have hall : ∀ l : List ((_ : Bytes) × Bytes), l.dropWhile (fun e => decide (e.1 < [])) = l := by
    intro l
    cases l with
    | nil => rfl
    | cons e l => exact dropWhile_cons_of_neg (by simp)
  rw [hall, (perm_insertionSort _ _).mem_iff, Map.mem_entries]

def Write.IsVersion (w : Write) : Prop := w.writeType = .put ∨ w.writeType = .delete

structure IsDelta (sinceTs : UInt64) (e : (_ : Bytes) × Bytes) (userKey : Bytes) (ts : UInt64) (w : Write) : Prop where
  key : e.1 = appendTs userKey ts
  after : sinceTs < ts
  parse : Write.parse e.2 = .ok w
  version : Write.IsVersion w

theorem deltaOf_cases : deltaOf default sinceTs e = ([], []) ∨ ∃ userKey ts w, IsDelta sinceTs e userKey ts w := by
  unfold deltaOf
  cases hd : decodeTsFrom e.1 with
  | error err => exact .inl rfl
  | ok ts =>
    obtain ⟨userKey, htr, hkey⟩ := eq_appendTs hd
    rw [htr]
    cases hw : parse e.2 with
    | error err => exact .inl rfl
    | ok w =>
      dsimp only
      split
      · rename_i hts
        cases ht : w.writeType with
        | put => exact .inr ⟨userKey, ts, w, hkey, hts, hw, .inl ht⟩
        | delete => exact .inr ⟨userKey, ts, w, hkey, hts, hw, .inr ht⟩
        | _ => left; simp [addRecord, ht]
      · exact .inl rfl

theorem IsDelta.deltaOf_eq (h : IsDelta sinceTs e userKey ts w) :
    deltaOf default sinceTs e = addRecord default userKey e.1 e.2 w ([], []) := by
  unfold deltaOf
  rw [h.parse, h.key, decodeTsFrom_appendTs, truncateTsFor_appendTs]
  exact if_pos h.after

def DefaultEntry (default : Map Bytes Bytes) (userKey : Bytes) (w : Write) (d : Bytes × Bytes × OpType) : Prop :=
  d.1 = appendTs userKey w.startTs ∧
    (w.writeType = .put ∧ w.shortValue = none ∧ default.lookup d.1 = some d.2.1 ∧ d.2.2 = .put ∨
      w.writeType = .delete ∧ d.2 = ([], .delete))

theorem addRecord_put (hw : w.writeType = .put) :
    addRecord default userKey k v w ([], []) = ([(k, v)], match w.shortValue with
      | some _ => []
      | none => ((default.lookup (appendTs userKey w.startTs)).map fun dv =>
          (appendTs userKey w.startTs, dv, OpType.put)).toList) := by
  unfold addRecord
  rw [hw]
  cases w.shortValue with
  | some sv => rfl
  | none => cases hl : default.lookup (appendTs userKey w.startTs) <;> simp [hl]

theorem addRecord_delete (hw : w.writeType = .delete) :
    addRecord default userKey k v w ([], []) = ([(k, v)], [(appendTs userKey w.startTs, [], OpType.delete)]) := by
  unfold addRecord
  rw [hw]; rfl

theorem mem_addRecord (hw : Write.IsVersion w) : (addRecord default userKey k v w ([], [])).1 = [(k, v)] ∧
      ∀ d, d ∈ (addRecord default userKey k v w ([], [])).2 ↔ DefaultEntry default userKey w d := by
  unfold DefaultEntry
  rcases hw with ht | ht
  · rw [addRecord_put ht, ht]
    refine ⟨rfl, fun (dk, dv, op) => ?_⟩
    cases w.shortValue with
    | some sv => simp
    | none =>
      simp only [Option.mem_toList, Option.map_eq_some_iff, Prod.mk.injEq, true_and, reduceCtorEq, false_and, or_false]
      constructor
      · rintro ⟨dv, hl, rfl, rfl, rfl⟩
        exact ⟨rfl, hl, rfl⟩
      · rintro ⟨rfl, hl, rfl⟩
        exact ⟨dv, hl, rfl, rfl, rfl⟩
  · rw [addRecord_delete ht, ht]
    simp

variable {src : KvEngine}

theorem versionAt_store : versionAt src.store userKey ts = some w ↔
      ∃ v, src.write.lookup (appendTs userKey ts) = some v ∧ parse v = .ok w ∧ Write.IsVersion w := by
  change versionOf (src.write.lookup (appendTs userKey ts)) = _ ↔ _
  unfold versionOf
  cases hl : src.write.lookup (appendTs userKey ts) with
  | none => simp
  | some v =>
    cases hp : parse v with
    | error err => simp [hp]
    | ok w' =>
      simp only [Option.map_some, hp]
      constructor
      · intro h
        split at h
        · rename_i hv
          cases h
          exact ⟨v, rfl, hp, hv⟩
        · cases h
      · rintro ⟨v', hv', hp', hver⟩
        cases hv'
        rw [hp] at hp'
        cases hp'
        exact if_pos hver

theorem isVersion_of_versionAt (h : versionAt src.store userKey ts = some w) : Write.IsVersion w := by
  obtain ⟨v, -, -, hver⟩ := versionAt_store.1 h
  exact hver

theorem mem_flatMap_deltaOf {α : Type} {f : DeltaEntries → List α} (hf : f ([], []) = []) {x : α} :
    (x ∈ (iterFrom src.write []).flatMap fun e => f (deltaOf src.default sinceTs e)) ↔
      ∃ userKey ts w v, sinceTs < ts ∧ versionAt src.store userKey ts = some w ∧
        src.write.lookup (appendTs userKey ts) = some v ∧
        x ∈ f (addRecord src.default userKey (appendTs userKey ts) v w ([], [])) := by
  rw [mem_flatMap]
  constructor
  · rintro ⟨⟨k, v⟩, he, hmem⟩
    have hl := mem_iterFrom.1 he
    rcases deltaOf_cases with hnil | ⟨userKey, ts, w, hd⟩
    · rw [hnil, hf] at hmem; exact nomatch hmem
    rw [hd.deltaOf_eq] at hmem
    obtain rfl : k = appendTs userKey ts := hd.key
    exact ⟨userKey, ts, w, v, hd.after, versionAt_store.2 ⟨v, hl, hd.parse, hd.version⟩, hl, hmem⟩
  · rintro ⟨userKey, ts, w, v, hts, hv, hl, hmem⟩
    obtain ⟨v', hl', hpw, hver⟩ := versionAt_store.1 hv
    rw [hl] at hl'
    cases hl'
    have hd : IsDelta sinceTs ⟨appendTs userKey ts, v⟩ userKey ts w := ⟨rfl, hts, hpw, hver⟩
    exact ⟨_, mem_iterFrom.2 hl, by rw [hd.deltaOf_eq]; exact hmem⟩

/-- **What the scan of a whole column family returns**: the records of the versions after the timestamp, and what each
is in the default column family. -/
structure Collects (src : KvEngine) (sinceTs : UInt64) (delta : DeltaEntries) : Prop where
  writes : ∀ k v, (k, v) ∈ delta.1 ↔ src.write.lookup k = some v ∧ ∃ userKey ts w, k = appendTs userKey ts ∧ sinceTs < ts ∧
    versionAt src.store userKey ts = some w
  defaults : ∀ d, d ∈ delta.2 ↔ ∃ userKey ts w, sinceTs < ts ∧ versionAt src.store userKey ts = some w ∧
    DefaultEntry src.default userKey w d

theorem collects_scanDeltaEntries {delta : DeltaEntries}
    (h : scanDeltaEntries src sinceTs [] [] = .ok delta) : Collects src sinceTs delta := by
  cases (scanLoop_ok (iterFrom src.write []) ([], []) h)
  refine ⟨fun k v => ?_, fun d => ?_⟩
  · refine (mem_flatMap_deltaOf (f := Prod.fst) rfl).trans ?_
    constructor
    · rintro ⟨userKey, ts, w, v', hts, hv, hl, hmem⟩
      rw [(mem_addRecord (isVersion_of_versionAt hv)).1] at hmem
      cases mem_singleton.1 hmem
      exact ⟨hl, userKey, ts, w, rfl, hts, hv⟩
    · rintro ⟨hl, userKey, ts, w, rfl, hts, hv⟩
      refine ⟨userKey, ts, w, v, hts, hv, hl, ?_⟩
      rw [(mem_addRecord (isVersion_of_versionAt hv)).1]
      exact mem_singleton.2 rfl
  · refine (mem_flatMap_deltaOf (f := Prod.snd) rfl).trans ?_
    constructor
    · rintro ⟨userKey, ts, w, v, hts, hv, -, hmem⟩
      exact ⟨userKey, ts, w, hts, hv, ((mem_addRecord (isVersion_of_versionAt hv)).2 d).1 hmem⟩
    · rintro ⟨userKey, ts, w, hts, hv, hde⟩
      obtain ⟨v, hl, -, hver⟩ := versionAt_store.1 hv
      exact ⟨userKey, ts, w, v, hts, hv, hl, ((mem_addRecord hver).2 d).2 hde⟩

/-! ## The target -/

def refersTo (sinceTs : UInt64) (k : Bytes) (e : (_ : Bytes) × Bytes) : Bool :=
  match decodeTsFrom e.1, truncateTsFor e.1, Write.parse e.2 with
  | .ok commitTs, .ok userKey, .ok w =>
    decide (commitTs ≤ sinceTs) && decide (w.writeType = .put) && decide (w.shortValue = none) &&
      decide (k = appendTs userKey w.startTs)
  | _, _, _ => false

/-- A target with the records committed by the timestamp and the values they refer to. -/
def KvEngine.upTo (src : KvEngine) (sinceTs : UInt64) : Engine
  | (.write, k) =>
    match decodeTsFrom k with
    | .ok commitTs => if commitTs ≤ sinceTs then src.write.lookup k else none
    | .error _ => none
  | (.default, k) => if src.write.entries.any (refersTo sinceTs k) then src.default.lookup k else none
  | _ => none

def writePatch (e : Bytes × Bytes) : EnginePatch := Patch.put (.write, e.1) e.2

def defaultPatch (d : Bytes × Bytes × OpType) : EnginePatch :=
  match d.2.2 with
  | .put => Patch.put (.default, d.1) d.2.1
  | .delete => Patch.del (.default, d.1)

def applyDelta (delta : DeltaEntries) (e : Engine) : Engine :=
  Patch.apply (Patch.seqAll (delta.1.map writePatch ++ delta.2.map defaultPatch)) e

/-- **A source that MVCC could have left**: a transaction has one Put or Delete of a key at most, and a Put without a
short value has its value in the default column family. -/
structure Consistent (src : KvEngine) : Prop where
  oneVersion : ∀ userKey ts ts' w w', versionAt src.store userKey ts = some w →
    versionAt src.store userKey ts' = some w' → w.startTs = w'.startTs → ts = ts'
  hasValue : ∀ userKey ts w, versionAt src.store userKey ts = some w → w.writeType = .put → w.shortValue = none →
    (src.default.lookup (appendTs userKey w.startTs)).isSome

variable {e : Bytes × Bytes} {d : Bytes × Bytes × OpType}

theorem writePatch_apply : writePatch e (.write, k) = if k = e.1 then some (some e.2) else none := by
  unfold writePatch put
  simp

theorem writePatch_default : writePatch e (.default, k) = none := by
  unfold writePatch put
  simp

theorem defaultPatch_write : defaultPatch d (.write, k) = none := by
  unfold defaultPatch put del
  cases d.2.2 <;> simp

theorem defaultPatch_default : defaultPatch d (.default, k) =
    if k = d.1 then some (match d.2.2 with | .put => some d.2.1 | .delete => none) else none := by
  unfold defaultPatch put del
  cases d.2.2 <;> simp

section

variable {src : KvEngine} (hsrc : Consistent src) {sinceTs : UInt64} {delta : DeltaEntries} (h : Collects src sinceTs delta)
include h

theorem applyDelta_write : applyDelta delta (src.upTo sinceTs) (.write, appendTs userKey ts) =
      if ts ≤ sinceTs ∨ (versionAt src.store userKey ts).isSome then src.write.lookup (appendTs userKey ts)
      else none := by
  have hbase : src.upTo sinceTs (.write, appendTs userKey ts) =
      if ts ≤ sinceTs then src.write.lookup (appendTs userKey ts) else none := by
    unfold KvEngine.upTo
    simp [decodeTsFrom_appendTs]
  unfold applyDelta apply
  by_cases hv : sinceTs < ts ∧ (versionAt src.store userKey ts).isSome
  · obtain ⟨hts, hv⟩ := hv
    obtain ⟨w, hw⟩ := Option.isSome_iff_exists.1 hv
    obtain ⟨v, hl, -, -⟩ := versionAt_store.1 hw
    have hmem : (appendTs userKey ts, v) ∈ delta.1 := (h.writes _ _).2 ⟨hl, userKey, ts, w, rfl, hts, hw⟩
    have hagree := seqAll_of_agree (l := delta.1.map writePatch ++ delta.2.map defaultPatch)
      (mem_append_left _ (mem_map_of_mem hmem)) (by rw [writePatch_apply, if_pos rfl]) ?_
    · rw [hagree, if_pos (.inr hv), hl]; rfl
    · rw [forall_mem_append, forall_mem_map, forall_mem_map]
      refine ⟨fun (k', v') hk' => ?_, fun d _ => .inl defaultPatch_write⟩
      rw [writePatch_apply]
      split
      · rename_i heq
        have hl' := ((h.writes k' v').1 hk').1
        rw [← show appendTs userKey ts = k' from heq, hl] at hl'
        cases hl'
        exact .inr rfl
      · exact .inl rfl
  · have hnone : seqAll (delta.1.map writePatch ++ delta.2.map defaultPatch) (.write, appendTs userKey ts) = none := by
      rw [seqAll_eq_none, forall_mem_append, forall_mem_map, forall_mem_map]
      refine ⟨fun (k', v') hk' => ?_, fun _ _ => defaultPatch_write⟩
      rw [writePatch_apply]
      refine if_neg fun heq => hv ?_
      obtain ⟨-, userKey', ts', w, hk, hts, hw⟩ := (h.writes k' v').1 hk'
      obtain ⟨rfl, rfl⟩ := appendTs_inj ((show appendTs userKey ts = k' from heq).trans hk)
      exact ⟨hts, by rw [hw]; rfl⟩
    rw [hnone, Option.getD_none, hbase]
    by_cases hts : ts ≤ sinceTs
    · rw [if_pos hts, if_pos (.inl hts)]
    rw [if_neg hts, if_neg]
    rintro (h | h)
    · exact hts h
    · exact hv ⟨UInt64.not_le.1 hts, h⟩

theorem versionAt_applyDelta :
    versionAt (applyDelta delta (src.upTo sinceTs)) userKey ts = versionAt src.store userKey ts := by
  have htarget : versionAt (applyDelta delta (src.upTo sinceTs)) userKey ts = versionOf
      (if ts ≤ sinceTs ∨ (versionAt src.store userKey ts).isSome then src.write.lookup (appendTs userKey ts)
        else none) := congrArg versionOf (applyDelta_write h)
  rw [htarget]
  split
  · rfl
  rename_i h
  -- the source has a record the target lacks only where it is neither a Put nor a Delete
  rw [not_or] at h
  exact (Option.not_isSome_iff_eq_none.1 h.2).symm

include hsrc

-- A transaction has one version of a key, so the delta's entry for the key of its value is of that version.
theorem delta_entry_of_put (hw : versionAt src.store userKey ts = some w) (hput : w.writeType = .put)
    (hv : src.default.lookup (appendTs userKey w.startTs) = some v) (hd : d ∈ delta.2)
    (hk : d.1 = appendTs userKey w.startTs) : sinceTs < ts ∧ d.2 = (v, .put) := by
  obtain ⟨userKey', ts', w', hts, hw', hk', hd'⟩ := (h.defaults d).1 hd
  obtain ⟨rfl, hstart⟩ := appendTs_inj (hk.symm.trans hk')
  obtain rfl := hsrc.oneVersion _ _ _ _ _ hw hw' hstart
  rw [hw] at hw'
  cases hw'
  rcases hd' with ⟨-, -, hl, hop⟩ | ⟨hdel, -⟩
  · rw [hk, hv] at hl
    cases hl
    exact ⟨hts, Prod.ext rfl hop⟩
  · rw [hput] at hdel; cases hdel

theorem applyDelta_default (hw : versionAt src.store userKey ts = some w)
    (hput : w.writeType = .put) (hshort : w.shortValue = none) :
    applyDelta delta (src.upTo sinceTs) (.default, appendTs userKey w.startTs) =
      src.default.lookup (appendTs userKey w.startTs) := by
  obtain ⟨v, hv⟩ := Option.isSome_iff_exists.1 (hsrc.hasValue userKey ts w hw hput hshort)
  have hentry : ∀ d ∈ delta.2, d.1 = appendTs userKey w.startTs → sinceTs < ts ∧ d.2 = (v, .put) :=
    fun d hd hk => delta_entry_of_put hsrc h hw hput hv hd hk
  have hpatches : ∀ q ∈ delta.1.map writePatch ++ delta.2.map defaultPatch, q (.default, appendTs userKey w.startTs) = none ∨
      q (.default, appendTs userKey w.startTs) = some (some v) := by
    rw [forall_mem_append, forall_mem_map, forall_mem_map]
    refine ⟨fun e _ => .inl writePatch_default, fun d hd => ?_⟩
    rw [defaultPatch_default]
    split
    · rename_i hk
      rw [(hentry d hd hk.symm).2]
      exact .inr rfl
    · exact .inl rfl
  unfold applyDelta apply
  rw [hv]
  by_cases hts : sinceTs < ts
  · have hmem : (appendTs userKey w.startTs, v, OpType.put) ∈ delta.2 :=
      (h.defaults _).2 ⟨userKey, ts, w, hts, hw, rfl, .inl ⟨hput, hshort, hv, rfl⟩⟩
    rw [seqAll_of_agree (mem_append_right _ (mem_map_of_mem hmem))
      (by rw [defaultPatch_default, if_pos rfl]) hpatches]
    rfl
  · have hnone : seqAll (delta.1.map writePatch ++ delta.2.map defaultPatch) (.default, appendTs userKey w.startTs) =
        none := by
      rw [seqAll_eq_none, forall_mem_append, forall_mem_map, forall_mem_map]
      refine ⟨fun _ _ => writePatch_default, fun d hd => ?_⟩
      rw [defaultPatch_default]
      exact if_neg fun hk => hts (hentry d hd hk.symm).1
    rw [hnone]
    obtain ⟨bytes, hl, hparse, -⟩ := versionAt_store.1 hw
    have href : src.write.entries.any (refersTo sinceTs (appendTs userKey w.startTs)) = true := by
      refine any_eq_true.2 ⟨⟨_, bytes⟩, Map.mem_entries.2 hl, ?_⟩
      unfold refersTo
      simp only [decodeTsFrom_appendTs, truncateTsFor_appendTs, hparse]
      simp [hput, hshort, UInt64.not_lt.1 hts]
    show (if _ then _ else _) = _
    rw [if_pos href, hv]

end

/-- **A target caught up by the delta scan reads like the source**, every key at every timestamp; and the scan returns
unless a record makes `parse` panic. -/
theorem mvccRead_delta (src : KvEngine) (hsrc : Consistent src) (sinceTs : UInt64) :
    (NoPanic src.write.entries → ∃ delta, scanDeltaEntries src sinceTs [] [] = .ok delta) ∧
    ∀ delta, scanDeltaEntries src sinceTs [] [] = .ok delta → ∀ userKey readTs,
      mvccRead (applyDelta delta (src.upTo sinceTs)) userKey readTs = mvccRead src.store userKey readTs := by
  refine ⟨fun hp => exists_scanLoop (iterFrom src.write []) _ ?_, ?_⟩
  · rintro ⟨k, v⟩ he
    exact hp ⟨k, v⟩ (Map.mem_entries.2 (mem_iterFrom.1 he))
  intro delta hscan userKey readTs
  have h := collects_scanDeltaEntries hscan
  refine mvccReadFrom_congr (fun _ => versionAt_applyDelta h) (fun ts w hw => ?_) readTs.toNat
  unfold readRecord
  split
  · rfl
  rename_i hdel
  have hput : w.writeType = .put := (isVersion_of_versionAt hw).resolve_right hdel
  cases hs : w.shortValue with
  | some v => rfl
  | none =>
    rw [applyDelta_default hsrc h hw hput hs]
    rfl

def putThenDelete : KvEngine where
  write := AList.insert (appendTs [0x61] 6) (Write.new .delete 5 none).toBytes
    (AList.insert (appendTs [0x61] 2) (Write.new .put 1 none).toBytes ∅)
  default := AList.insert (appendTs [0x61] 1) [9] ∅

theorem putThenDelete_lookup (h : putThenDelete.write.lookup k = some v) :
    k = appendTs [0x61] 6 ∧ v = (new .delete 5 none).toBytes ∨
      k = appendTs [0x61] 2 ∧ v = (new .put 1 none).toBytes := by
  rcases Map.lookup_insert_cases h with ⟨hk, rfl⟩ | h
  · exact .inl ⟨hk, rfl⟩
  rcases Map.lookup_insert_cases h with ⟨hk, rfl⟩ | h
  · exact .inr ⟨hk, rfl⟩
  · cases h

theorem putThenDelete_version (h : versionAt putThenDelete.store userKey ts = some w) : userKey = [0x61] ∧
      (ts = 6 ∧ w = new .delete 5 none ∨ ts = 2 ∧ w = new .put 1 none) := by
  obtain ⟨v, hl, hp, -⟩ := versionAt_store.1 h
  rcases putThenDelete_lookup hl with ⟨hk, rfl⟩ | ⟨hk, rfl⟩
  all_goals
    obtain ⟨rfl, rfl⟩ := appendTs_inj hk
    cases hp
  · exact ⟨rfl, .inl ⟨rfl, rfl⟩⟩
  · exact ⟨rfl, .inr ⟨rfl, rfl⟩⟩

theorem putThenDelete_noPanic : NoPanic putThenDelete.write.entries := by
  rintro ⟨k, v⟩ he m
  rcases putThenDelete_lookup (Map.mem_entries.1 he) with ⟨-, rfl⟩ | ⟨-, rfl⟩
  all_goals
    exact nofun

theorem putThenDelete_consistent : Consistent putThenDelete := by
  refine ⟨?_, ?_⟩
  · intro userKey ts ts' w w' hw hw' hstart
    obtain ⟨-, ⟨rfl, rfl⟩ | ⟨rfl, rfl⟩⟩ := putThenDelete_version hw <;>
      obtain ⟨-, ⟨rfl, rfl⟩ | ⟨rfl, rfl⟩⟩ := putThenDelete_version hw'
    · rfl
    · exact absurd hstart (by decide)
    · exact absurd hstart (by decide)
    · rfl
  · intro userKey ts w hw hput hshort
    obtain ⟨rfl, ⟨rfl, rfl⟩ | ⟨rfl, rfl⟩⟩ := putThenDelete_version hw
    · cases hput
    · decide

theorem mvccRead_delta_putThenDelete : ∃ delta, scanDeltaEntries putThenDelete 3 [] [] = .ok delta ∧ ∀ userKey readTs,
      mvccRead (applyDelta delta (putThenDelete.upTo 3)) userKey readTs =
        mvccRead putThenDelete.store userKey readTs := by
  obtain ⟨hret, hread⟩ := mvccRead_delta putThenDelete putThenDelete_consistent 3
  obtain ⟨delta, hscan⟩ := hret putThenDelete_noPanic
  exact ⟨delta, hscan, hread delta hscan⟩

end Cdc
end Tikv
