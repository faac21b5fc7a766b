import Mathlib.Data.List.TakeWhile
import Tikv.ImportSstWriter
import Tikv.MvccRead
/-!
# ImportIngest — what transactional readers see of ingested files

Ingestion overlays the puts and deletions of a file on its column family.  Ingesting what a `TxnSstWriter` has written is
writing its pairs to the engine one after the other (`ingestAll_finish`), and a pair is then the version a reader comes to
from its commit timestamp on, until a newer pair of the key (`pointGet_ingested`).

The engine keeps bytes; `Engine.keyState` is the key as the readers of `storage::mvcc` see it.
-/
namespace Tikv
namespace Import

open Lib Codec Raw Mvcc OrderDual List TxnPair Chain

/-! ## The engine -/

/-- A column family in the order of its keys: `seek` comes to the first one at or above. -/
abbrev Cf := Chain Bytesᵒᵈ Bytes

def cfGet (cf : Cf) (key : Bytes) : Option Bytes := cf.lookup (toDual key)

def ingestFile (cf : Cf) (file : SstFile) : Cf := cf.overlay (file.map fun e => (toDual e.1, e.2))

theorem ingestFile_append (cf : Cf) (file file' : SstFile) :
    ingestFile cf (file ++ file') = ingestFile (ingestFile cf file) file' := by
  unfold ingestFile
  rw [map_append, overlay_append]

variable {key : Bytes} {file : SstFile}

theorem cfGet_ingestFile_of_forall_ne (cf : Cf) (h : ∀ e ∈ file, e.1 ≠ key) :
    cfGet (ingestFile cf file) key = cfGet cf key := by
  refine lookup_overlay_of_forall_ne cf fun e he => ?_
  obtain ⟨e', he', rfl⟩ := mem_map.1 he
  exact fun heq => h e' he' (toDual_inj.1 heq)

theorem cfGet_ingestFile_of_mem (cf : Cf) (hfile : file.Pairwise fun a b => a.1 < b.1)
    {e : Bytes × Option Bytes} (he : e ∈ file) : cfGet (ingestFile cf file) e.1 = e.2 := by
  refine lookup_overlay_of_mem cf ?_ (mem_map.2 ⟨e, he, rfl⟩)
  refine pairwise_map.2 (hfile.imp fun hlt heq => ?_)
  exact absurd (toDual_inj.1 heq) (ne_of_lt hlt)

/-- The column families of transactional data, and the lock of each user key; no file goes to the locks. -/
structure Engine where
  default : Cf
  write : Cf
  lock : Bytes → Option Mvcc.Lock

open Engine

namespace Engine

def ingest (e : Engine) : CfName × SstFile → Engine
  | (.default, file) => { e with default := ingestFile e.default file }
  | (.write, file) => { e with write := ingestFile e.write file }

def ingestAll (e : Engine) (files : List (CfName × SstFile)) : Engine := files.foldl ingest e

def applyPair (e : Engine) (p : TxnPair) : Engine :=
  { e with
    default := ingestFile e.default p.defaultEntries
    write := ingestFile e.write p.writeEntries }

theorem foldl_applyPair (ps : List TxnPair) (e : Engine) : ps.foldl applyPair e = { e with
      default := ingestFile e.default (ps.flatMap defaultEntries)
      write := ingestFile e.write (ps.flatMap writeEntries) } := by
  induction ps generalizing e with
  | nil => rfl
  | cons p ps ih =>
    rw [foldl_cons, ih, flatMap_cons, ingestFile_append]
    rfl

theorem ingestAll_finish (e : Engine) (api : ApiVersion) (ps : List TxnPair) :
    e.ingestAll ((TxnSstWriter.new api).add ps).finish = ps.foldl applyPair e := by
  rw [foldl_applyPair]
  unfold TxnSstWriter.add TxnSstWriter.new
  generalize ps.flatMap defaultEntries = d
  generalize ps.flatMap writeEntries = w
  -- a file without entries is not saved, and would change nothing
  cases d with
  | nil =>
    cases w with
    | nil | cons => rfl
  | cons b d =>
    cases w with
    | nil | cons => rfl

end Engine

/-! ## A user key in the engine -/

def versionTs (key k : Bytes) : Option UInt64 :=
  match k with
  | [] => none
  | b :: rest =>
    if b = 0x7a then
      match Txn.splitOnTsFor rest with
      | .ok (user, ts) => if user = Txn.fromRaw key then some ts else none
      | .error _ => none
    else none

def versionKey (key : Bytes) (ts : UInt64) : Bytes := dataKey (Txn.appendTs (Txn.fromRaw key) ts)

theorem versionTs_eq_some {k : Bytes} {ts : UInt64} : versionTs key k = some ts ↔ k = versionKey key ts := by
  constructor
  · intro h
    unfold versionTs at h
    split at h
    · cases h
    split at h
    · rename_i hb
      split at h
      · rename_i user ts' hsplit
        split at h
        · rename_i huser
          cases h
          obtain ⟨htrunc, hts⟩ := Txn.splitOnTsFor_eq_ok.1 hsplit
          obtain ⟨user', htrunc', heq⟩ := Txn.eq_appendTs hts
          cases htrunc.symm.trans htrunc'
          rw [hb, heq, huser]
          rfl
        · cases h
      · cases h
    · cases h
  · rintro rfl
    unfold versionTs versionKey dataKey
    simp [Txn.splitOnTsFor_appendTs]

theorem versionKey_lt_iff {key' : Bytes} {ts ts' : UInt64} :
    versionKey key ts < versionKey key' ts' ↔ key < key' ∨ key = key' ∧ ts' < ts :=
  dataKey_lt_iff.trans (Txn.appendTs_lt_appendTs_iff key key' ts ts')

theorem versionKey_inj {key' : Bytes} {ts ts' : UInt64} (h : versionKey key ts = versionKey key' ts') :
    key = key' ∧ ts = ts' := by
  obtain ⟨hkey, hts⟩ := Txn.appendTs_inj (dataKey_inj.1 h)
  have heq : encodeBytes key = encodeBytes key' := hkey
  exact ⟨memcomparable_encodeBytes.eq_of_isPrefix (heq ▸ prefix_refl _), hts⟩

def versionOf {ν : Type} (parse : Bytes → Option ν) (key : Bytes) (e : Bytesᵒᵈ × Bytes) : Option (Nat × ν) :=
  (versionTs key (ofDual e.1)).bind fun ts => (parse e.2).map fun v => (ts.toNat, v)

variable {ν : Type} {t : Nat}

theorem versionOf_eq_some {parse : Bytes → Option ν} {e : Bytesᵒᵈ × Bytes} {v : ν} :
    versionOf parse key e = some (t, v) ↔
      ∃ ts : UInt64, ofDual e.1 = versionKey key ts ∧ parse e.2 = some v ∧ ts.toNat = t := by
  unfold versionOf
  simp only [Option.bind_eq_some_iff, Option.map_eq_some_iff, Prod.mk.injEq, versionTs_eq_some]
  constructor
  · rintro ⟨ts, hkey, v', hv, hts, rfl⟩
    exact ⟨ts, hkey, hv, hts⟩
  · rintro ⟨ts, hkey, hv, hts⟩
    exact ⟨ts, hkey, v, hv, hts, rfl⟩

theorem sorted_filterMap_versionOf (parse : Bytes → Option ν) (key : Bytes) (cf : Cf) :
    (cf.entries.filterMap (versionOf parse key)).Pairwise fun a b => b.1 < a.1 := by
  refine List.Pairwise.filterMap _ ?_ cf.sorted
  rintro e e' hlt ⟨t, v⟩ h ⟨t', v'⟩ h'
  obtain ⟨ts, hkey, -, rfl⟩ := versionOf_eq_some.1 h
  obtain ⟨ts', hkey', -, rfl⟩ := versionOf_eq_some.1 h'
  have hlt' : versionKey key ts < versionKey key ts' := hkey ▸ hkey' ▸ ofDual_lt_ofDual.2 hlt
  rcases versionKey_lt_iff.1 hlt' with hkk | ⟨-, hts⟩
  · exact absurd hkk (lt_irrefl _)
  · exact hts

def versions {ν : Type} (parse : Bytes → Option ν) (key : Bytes) (cf : Cf) : Chain Nat ν :=
  ⟨cf.entries.filterMap (versionOf parse key), sorted_filterMap_versionOf parse key cf⟩

theorem mem_versions {parse : Bytes → Option ν} {cf : Cf} {v : ν} :
    (t, v) ∈ (versions parse key cf).entries ↔
      ∃ (ts : UInt64) (b : Bytes), cfGet cf (versionKey key ts) = some b ∧ parse b = some v ∧ ts.toNat = t := by
  unfold versions cfGet
  simp only [mem_filterMap, versionOf_eq_some, lookup_eq_some]
  constructor
  · rintro ⟨⟨k, b⟩, hmem, ts, hkey, hb, hts⟩
    refine ⟨ts, b, ?_, hb, hts⟩
    rwa [← hkey]
  · rintro ⟨ts, b, hmem, hb, hts⟩
    exact ⟨_, hmem, ts, rfl, hb, hts⟩

/-! ## Files of versions -/

section

variable {α ν : Type} {key : α → Bytes} {ts : α → UInt64} {val : α → Option Bytes} {parse : Bytes → Option ν} {cf : Cf}
  {l : List α}

def versionFile (key : α → Bytes) (ts : α → UInt64) (val : α → Option Bytes) (l : List α) : SstFile :=
  l.map fun a => (versionKey (key a) (ts a), val a)

theorem mem_versions_of_mem (hsorted : l.Pairwise fun a b => versionKey (key a) (ts a) < versionKey (key b) (ts b)) {a : α}
    (ha : a ∈ l) {b : Bytes} (hb : val a = some b) {v : ν} (hv : parse b = some v) :
    ((ts a).toNat, v) ∈ (versions parse (key a) (ingestFile cf (versionFile key ts val l))).entries := by
  refine mem_versions.2 ⟨ts a, b, ?_, hv, rfl⟩
  rw [← hb]
  exact cfGet_ingestFile_of_mem cf (pairwise_map.2 hsorted) (mem_map_of_mem ha)

theorem mem_of_mem_versions {k : Bytes} {r : Nat × ν}
    (hr : r ∈ (versions parse k (ingestFile cf (versionFile key ts val l))).entries) :
    (∃ a ∈ l, key a = k ∧ (ts a).toNat = r.1) ∨ r ∈ (versions parse k cf).entries := by
  obtain ⟨u, b, hget, hb, hu⟩ := mem_versions.1 hr
  by_cases ha : ∃ a ∈ l, versionKey (key a) (ts a) = versionKey k u
  · obtain ⟨a, hmem, heq⟩ := ha
    obtain ⟨hkey, hts⟩ := versionKey_inj heq
    exact .inl ⟨a, hmem, hkey, hts ▸ hu⟩
  · rw [cfGet_ingestFile_of_forall_ne] at hget
    · exact .inr (mem_versions.2 ⟨u, b, hget, hb, hu⟩)
    · intro x hx
      obtain ⟨a, hmem, rfl⟩ := mem_map.1 hx
      exact fun heq => ha ⟨a, hmem, heq⟩

theorem versions_ingestFile (k : Bytes) (h : ∀ a ∈ l, key a ≠ k) :
    versions parse k (ingestFile cf (versionFile key ts val l)) = versions parse k cf := by
  have hget : ∀ u, cfGet (ingestFile cf (versionFile key ts val l)) (versionKey k u) = cfGet cf (versionKey k u) := by
    intro u
    refine cfGet_ingestFile_of_forall_ne cf fun x hx => ?_
    obtain ⟨a, hmem, rfl⟩ := mem_map.1 hx
    exact fun heq => h a hmem (versionKey_inj heq).1
  refine ext_lookup fun t => Option.ext fun v => ?_
  simp [lookup_eq_some, mem_versions, hget]

end

def ofLastChange : Txn.LastChange → Mvcc.LastChange
  | .unknown => .unknown
  | .exist ts versions _ _ => .exist ts.toNat versions.toNat
  | .notExist => .notExist

def ofRecord (w : Txn.Write) : Mvcc.Write :=
  { writeType := w.writeType
    startTs := w.startTs.toNat
    shortValue := w.shortValue.map Subtype.val
    hasOverlappedRollback := w.hasOverlappedRollback
    gcFence := w.gcFence.map UInt64.toNat
    lastChange := ofLastChange w.lastChange
    txnSource := w.txnSource.toNat }

/-- A record that does not parse fails the reader that comes to it; it is left out here. -/
def parseRecord (b : Bytes) : Option Mvcc.Write := (Txn.Write.parse b).toOption.map ofRecord

theorem parseRecord_toBytes (w : Txn.Write) : parseRecord w.toBytes = some (ofRecord w) := by
  unfold parseRecord
  rw [Txn.Write.parse_toBytes]
  rfl

def Engine.keyState (e : Engine) (key : Bytes) : KeyState :=
  { lock := e.lock key
    writes := versions parseRecord key e.write
    values := (versions some key e.default).toMap }

/-! ## Reading a pair -/

def TxnPair.read (cfg : ReadConfig) (p : TxnPair) : Option Bytes :=
  match p.pair.op with
  | .put => some (if cfg.omitValue then [] else p.pair.value)
  | .delete => none

variable {cfg : ReadConfig} {key : Bytes} {k : KeyState} {c : Nat} {w : Mvcc.Write}

theorem dropWhile_eq_cons {v : Versions} {ts : Nat} (hmem : (c, w) ∈ v.entries) (hle : c ≤ ts)
    (hnewest : ∀ e ∈ v.entries, e.1 ≤ ts → e.1 ≤ c) :
    ∃ older, v.entries.dropWhile (fun e => decide (ts < e.1)) = (c, w) :: older := by
  have hcame := cameTo_dropWhile v ts
  have hmem' : (c, w) ∈ v.entries.dropWhile fun e => decide (ts < e.1) := by
    rw [← takeWhile_append_dropWhile (p := fun e => decide (ts < e.1)) (l := v.entries)] at hmem
    rcases mem_append.1 hmem with hmem | hmem
    · have hlt := mem_takeWhile_imp hmem
      exact absurd (of_decide_eq_true hlt) (not_lt.2 hle)
    · exact hmem
  cases hd : v.entries.dropWhile fun e => decide (ts < e.1) with
  | nil =>
    rw [hd] at hmem'
    cases hmem'
  | cons e older =>
    rw [hd] at hmem' hcame
    rcases mem_cons.1 hmem' with heq | holder
    · exact ⟨older, by rw [heq]⟩
    have hlt := hcame.lt_head holder
    have := hnewest e hcame.mem (hcame.le e mem_cons_self)
    exact absurd hlt (not_lt.2 this)

theorem pointGet_of_newest (newer : NewerTsCheckState) (hmem : (c, w) ∈ k.writes.entries) (hle : c ≤ cfg.ts)
    (hnewest : ∀ e ∈ k.writes.entries, e.1 ≤ cfg.ts → e.1 ≤ c) (hdata : w.verdict cfg.ts ≠ .older)
    (hrc : cfg.isolationLevel = .rcCheckTs → ∀ e ∈ k.writes.entries, e.1 ≤ cfg.ts) :
    (pointGet cfg newer key k).1 = (lockRead cfg key k).getD
      (if w.verdict cfg.ts = .value then loadWrite cfg k.values.lookup w else .ok none) := by
  obtain ⟨newer', hget⟩ := pointGet_fst cfg newer key k
  obtain ⟨older, hdrop⟩ := dropWhile_eq_cons hmem hle hnewest
  have hfound : pointFrom cfg k.writes k.values.lookup ((c, w) :: older) =
      if w.verdict cfg.ts = .value then loadWrite cfg k.values.lookup w else .ok none := by
    unfold pointFrom
    cases hverdict : w.verdict cfg.ts with
    | value | absent => rfl
    | older => exact absurd hverdict hdata
  have hload : (pointLoad cfg newer' k.writes k.values.lookup).1 =
      pointFrom cfg k.writes k.values.lookup ((c, w) :: older) := by
    unfold pointLoad
    rw [hdrop]
    split
    · cases hhead : newestWrite k.writes with
      | none =>
        rw [head?_eq_none_iff.1 hhead] at hmem
        cases hmem
      | some e =>
        dsimp only
        split
        · rename_i hlt
          -- a newer version is a conflict only where it is looked for
          have hiso : cfg.isolationLevel ≠ .rcCheckTs := fun hiso =>
            absurd hlt (not_lt.2 (hrc hiso e (mem_of_mem_head? hhead)))
          exact if_neg hiso
        · rfl
    · rfl
  rw [hget, ← hfound, ← hload]
  cases lockRead cfg key k <;> rfl

/-! ## The pairs in the engine -/

section

variable {e : Engine} {ps : List TxnPair} (hsorted : (ps.map encoded).Pairwise (· < ·))

include hsorted in
theorem sorted_versionKeys :
    ps.Pairwise fun p q => versionKey p.pair.key p.commitTs < versionKey q.pair.key q.commitTs :=
  (pairwise_map.1 hsorted).imp dataKey_lt_iff.2

theorem flatMap_writeEntries : ps.flatMap writeEntries =
    versionFile (·.pair.key) (·.commitTs) (fun p => some p.record.toBytes) ps := map_eq_flatMap.symm

theorem flatMap_defaultEntries : ps.flatMap defaultEntries =
    versionFile (·.pair.key) (·.commitTs) (fun p => some p.pair.value) (ps.filter isLong) := by
  induction ps with
  | nil => rfl
  | cons p ps ih =>
    rw [flatMap_cons, ih]
    unfold defaultEntries
    cases hlong : p.isLong with
    | true =>
      rw [filter_cons_of_pos hlong]
      rfl
    | false =>
      rw [filter_cons_of_neg (by simp [hlong])]
      rfl

variable {p : TxnPair}

include hsorted in
theorem mem_writes_of_mem (hp : p ∈ ps) :
    (p.commitTs.toNat, ofRecord p.record) ∈ ((ps.foldl applyPair e).keyState p.pair.key).writes.entries := by
  rw [foldl_applyPair, flatMap_writeEntries]
  exact mem_versions_of_mem (sorted_versionKeys hsorted) hp rfl (parseRecord_toBytes _)

theorem mem_writes {r : Nat × Mvcc.Write} (hr : r ∈ ((ps.foldl applyPair e).keyState key).writes.entries) :
    (∃ q ∈ ps, q.pair.key = key ∧ q.commitTs.toNat = r.1) ∨ r ∈ (e.keyState key).writes.entries := by
  rw [foldl_applyPair, flatMap_writeEntries] at hr
  exact mem_of_mem_versions hr

include hsorted in
theorem lookup_values_of_mem (hp : p ∈ ps) (hlong : p.isLong = true) :
    ((ps.foldl applyPair e).keyState p.pair.key).values.lookup p.commitTs.toNat = some p.pair.value := by
  refine (lookup_toMap _ _).trans (lookup_eq_some.2 ?_)
  rw [foldl_applyPair, flatMap_defaultEntries]
  exact mem_versions_of_mem ((sorted_versionKeys hsorted).filter _) (mem_filter.2 ⟨hp, hlong⟩) rfl rfl

theorem verdict_record (ts : Nat) : (ofRecord p.record).verdict ts = if p.pair.op = .put then .value else .absent := by
  unfold record
  cases p.pair.op <;> rfl

include hsorted in
theorem loadWrite_record (hp : p ∈ ps) (hop : p.pair.op = .put) (cfg : ReadConfig) :
    loadWrite cfg ((ps.foldl applyPair e).keyState p.pair.key).values.lookup (ofRecord p.record) =
      .ok (p.read cfg) := by
  unfold loadWrite loadValue TxnPair.read
  rw [hop]
  cases cfg.omitValue with
  | true => rfl
  | false =>
    have hrecord : p.record = .new .put p.commitTs (TxnSstWriter.shortValue? p.pair.value) := by
      unfold record
      rw [hop]
    rw [hrecord]
    cases hshort : TxnSstWriter.shortValue? p.pair.value with
    | none =>
      have hlong : p.isLong = true := by
        unfold isLong
        rw [hop, hshort]
        rfl
      have hlookup := lookup_values_of_mem (e := e) hsorted hp hlong
      simp only [ofRecord, Txn.Write.new, hlookup]
      rfl
    | some short =>
      have hval : short.val = p.pair.value := by
        unfold TxnSstWriter.shortValue? at hshort
        split at hshort
        · cases hshort
          rfl
        · cases hshort
      simp only [ofRecord, Txn.Write.new, Option.map_some, hval]
      rfl

include hsorted in
/-- **A pair is what a reader sees of its key**, from its commit timestamp on until a newer pair of the key, if the key had
only older records before.  A lock on the key decides as it does anywhere else. -/
theorem pointGet_ingested (newer : NewerTsCheckState) {p : TxnPair} (hp : p ∈ ps) (hle : p.commitTs.toNat ≤ cfg.ts)
    (hnewest : ∀ q ∈ ps, q.pair.key = p.pair.key → q.commitTs.toNat ≤ cfg.ts → q.commitTs ≤ p.commitTs)
    (hrc : cfg.isolationLevel = .rcCheckTs → ∀ q ∈ ps, q.pair.key = p.pair.key → q.commitTs.toNat ≤ cfg.ts)
    (holder : ∀ r ∈ (e.keyState p.pair.key).writes.entries, r.1 < p.commitTs.toNat) :
    (pointGet cfg newer p.pair.key ((ps.foldl applyPair e).keyState p.pair.key)).1 =
      (lockRead cfg p.pair.key ((ps.foldl applyPair e).keyState p.pair.key)).getD (.ok (p.read cfg)) := by
  rw [pointGet_of_newest newer (mem_writes_of_mem hsorted hp) hle, verdict_record]
  · cases hop : p.pair.op with
    | put => rw [if_pos (if_pos rfl), loadWrite_record hsorted hp hop]
    | delete =>
      rw [if_neg (by simp)]
      unfold TxnPair.read
      rw [hop]
  · intro r hr hrle
    rcases mem_writes hr with ⟨q, hq, hkey, hts⟩ | hold
    · rw [← hts] at hrle ⊢
      exact hnewest q hq hkey hrle
    · exact le_of_lt (holder r hold)
  · rw [verdict_record]
    cases p.pair.op <;> simp
  · intro hiso r hr
    rcases mem_writes hr with ⟨q, hq, hkey, hts⟩ | hold
    · exact hts ▸ hrc hiso q hq hkey
    · exact le_trans (le_of_lt (holder r hold)) hle

end

end Import
end Tikv
